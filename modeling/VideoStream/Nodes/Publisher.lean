import Mathlib.Data.List.Basic
import Mathlib.Logic.Function.Basic
import VideoStream.Library.Linearization

/-!
# `vp_meta_publisher`

`subscribers` is a vector behind `subscribers_lock`. `push_meta`, `add_subscriber` and
`remove_subscriber` hold the lock while they go through it; here each test of the iterator, with the
`meta_flow` or the change of the vector that follows it, is a step of its own, and so are taking the
lock, releasing it, and the return.

`I` is the type of the calls, of all threads: the call `i` is a call of `op i`. Which calls there
are, and in which order their steps come, is up to the run. A thread makes its calls one after the
other, which is a restriction on the runs that nothing here needs.

`received` is what the subscribers have been given, oldest first; an entry names the call of
`push_meta` that it comes from.
-/

namespace VideoStream

open Library

/-- The member functions that take `subscribers_lock`. -/
inductive PublisherOp (K M : Type) where
  | addSubscriber (subscriber : K)
  | removeSubscriber (subscriber : K)
  | pushMeta (m : M)
  deriving DecidableEq

/-- Where a call stands; `locked i` is behind the lock, with the iterator at `i`. -/
inductive PublisherPc where
  | absent
  | lock
  | locked (i : Nat)
  | unlocked
  | returned
  deriving DecidableEq

structure Publisher (K M I : Type) where
  subscribers : List K
  subscribersLock : Option I
  calls : I → PublisherPc
  received : K → List (I × M)
  trace : List (HistoryEvent I)

inductive PublisherAct (I : Type) where
  | call (i : I)
  | step (i : I)

namespace Publisher

variable {K M I : Type} [DecidableEq K] [DecidableEq I]

/-- A publisher as it is constructed, before any call. -/
def start : Publisher K M I where
  subscribers := []
  subscribersLock := none
  calls _ := .absent
  received _ := []
  trace := []

/-- The call `i` goes on at `pc`. -/
def goto (s : Publisher K M I) (i : I) (pc : PublisherPc) : Publisher K M I :=
  { s with calls := Function.update s.calls i pc }

def log (s : Publisher K M I) (e : HistoryEvent I) : Publisher K M I :=
  { s with trace := s.trace ++ [e] }

/-- The end of the scope of the `lock_guard`. -/
def unlock (s : Publisher K M I) (i : I) : Publisher K M I :=
  { s with subscribersLock := none }.goto i .unlocked

/-- `vp_meta_publisher::add_subscriber` behind the lock. -/
def addSubscriber (s : Publisher K M I) (i : I) (subscriber : K) : Nat → Publisher K M I
  | 0 => { s with subscribers := s.subscribers ++ [subscriber] }.goto i (.locked 1)
  | _ + 1 => s.unlock i

/-- `vp_meta_publisher::remove_subscriber` behind the lock, from the test of the iterator. -/
def removeSubscriber (s : Publisher K M I) (i : I) (subscriber : K) (it : Nat) :
    Publisher K M I :=
  match s.subscribers[it]? with
  | none => s.unlock i
  | some k =>
      if k = subscriber then { s with subscribers := s.subscribers.eraseIdx it }.goto i (.locked it)
      else s.goto i (.locked (it + 1))

/-- `vp_meta_publisher::push_meta` behind the lock, from the test of the iterator. -/
def pushMeta (s : Publisher K M I) (i : I) (m : M) (it : Nat) : Publisher K M I :=
  match s.subscribers[it]? with
  | none => s.unlock i
  | some k =>
      { s with received := Function.update s.received k (s.received k ++ [(i, m)]) }.goto i
        (.locked (it + 1))

/-- The body of a call behind the lock. -/
def body (s : Publisher K M I) (i : I) (it : Nat) : PublisherOp K M → Publisher K M I
  | .addSubscriber k => s.addSubscriber i k it
  | .removeSubscriber k => s.removeSubscriber i k it
  | .pushMeta m => s.pushMeta i m it

/-- The next step of the call `i`. The mutex is taken only while it is free. -/
def callStep (op : I → PublisherOp K M) (s : Publisher K M I) (i : I) : Option (Publisher K M I) :=
  match s.calls i with
  | .absent => none
  | .lock =>
      match s.subscribersLock with
      | none =>
          some (({ s with subscribersLock := some i }.log (.point i)).goto i (.locked 0))
      | some _ => none
  | .locked it => some (s.body i it (op i))
  | .unlocked => some ((s.log (.ret i)).goto i .returned)
  | .returned => none

def step (op : I → PublisherOp K M) (s : Publisher K M I) :
    PublisherAct I → Option (Publisher K M I)
  | .call i =>
      match s.calls i with
      | .absent => some ((s.log (.call i)).goto i .lock)
      | _ => none
  | .step i => s.callStep op i

end Publisher

/-- A publisher and the threads that call it. -/
def vpMetaPublisher {K M I : Type} [DecidableEq K] [DecidableEq I] (op : I → PublisherOp K M) :
    System (Publisher K M I) (PublisherAct I) where
  init s := s = Publisher.start
  step := Publisher.step op

namespace Publisher

variable {K M I : Type} [DecidableEq K] [DecidableEq I] {op : I → PublisherOp K M}
variable {s s' : Publisher K M I} {i j : I}

/-! ## The transitions -/

/-- The transitions of a publisher. -/
inductive Step (op : I → PublisherOp K M) (s : Publisher K M I) : Publisher K M I → Prop
  | call (i : I) : s.calls i = .absent → Step op s ((s.log (.call i)).goto i .lock)
  | lock (i : I) : s.calls i = .lock → s.subscribersLock = none →
      Step op s (({ s with subscribersLock := some i }.log (.point i)).goto i (.locked 0))
  | body (i : I) (it : Nat) : s.calls i = .locked it → Step op s (s.body i it (op i))
  | ret (i : I) : s.calls i = .unlocked → Step op s ((s.log (.ret i)).goto i .returned)

theorem step_cases {a : PublisherAct I} (h : s.step op a = some s') : Step op s s' := by
  cases a with
  | call i =>
      cases hp : s.calls i with
      | absent =>
          simp only [step, hp] at h
          cases h
          exact .call i hp
      | _ => simp [step, hp] at h
  | step i =>
      change s.callStep op i = some s' at h
      unfold callStep at h
      cases hp : s.calls i with
      | absent | returned => simp [hp] at h
      | lock =>
          simp only [hp] at h
          split at h
          · next hl => cases h; exact .lock i hp hl
          · cases h
      | locked it => simp only [hp] at h; cases h; exact .body i it hp
      | unlocked => simp only [hp] at h; cases h; exact .ret i hp

/-- What the body of a call can do to the publisher. -/
inductive BodyStep (s : Publisher K M I) (i : I) (it : Nat) :
    PublisherOp K M → Publisher K M I → Prop
  | pushBack (k : K) : it = 0 →
      BodyStep s i it (.addSubscriber k)
        ({ s with subscribers := s.subscribers ++ [k] }.goto i (.locked 1))
  | added (k : K) : it ≠ 0 → BodyStep s i it (.addSubscriber k) (s.unlock i)
  | erase (k : K) : s.subscribers[it]? = some k →
      BodyStep s i it (.removeSubscriber k)
        ({ s with subscribers := s.subscribers.eraseIdx it }.goto i (.locked it))
  | keep (k x : K) : s.subscribers[it]? = some x → x ≠ k →
      BodyStep s i it (.removeSubscriber k) (s.goto i (.locked (it + 1)))
  | removed (k : K) : s.subscribers[it]? = none →
      BodyStep s i it (.removeSubscriber k) (s.unlock i)
  | metaFlow (m : M) (k : K) : s.subscribers[it]? = some k →
      BodyStep s i it (.pushMeta m)
        ({ s with received := Function.update s.received k (s.received k ++ [(i, m)]) }.goto i
          (.locked (it + 1)))
  | pushed (m : M) : s.subscribers[it]? = none → BodyStep s i it (.pushMeta m) (s.unlock i)

theorem body_cases (s : Publisher K M I) (i : I) (it : Nat) (o : PublisherOp K M) :
    BodyStep s i it o (s.body i it o) := by
  cases o with
  | addSubscriber k =>
      cases it with
      | zero => exact .pushBack k rfl
      | succ n => exact .added k (Nat.succ_ne_zero n)
  | removeSubscriber k =>
      show BodyStep s i it _ (s.removeSubscriber i k it)
      unfold removeSubscriber
      split
      · next hk => exact .removed k hk
      · next x hx =>
          split
          · next heq => exact .erase k (heq ▸ hx)
          · next hne => exact .keep k x hx hne
  | pushMeta m =>
      show BodyStep s i it _ (s.pushMeta i m it)
      unfold pushMeta
      split
      · next hk => exact .pushed m hk
      · next k hk => exact .metaFlow m k hk

/-- A step of a body goes on behind the lock, or releases it. -/
theorem BodyStep.frame {it : Nat} {o : PublisherOp K M} (h : BodyStep s i it o s') :
    s'.trace = s.trace ∧
      ((∃ it', s'.calls = Function.update s.calls i (.locked it')) ∧
          s'.subscribersLock = s.subscribersLock ∨
        s'.calls = Function.update s.calls i .unlocked ∧ s'.subscribersLock = none) := by
  cases h with
  | added | removed | pushed => exact ⟨rfl, .inr ⟨rfl, rfl⟩⟩
  | pushBack | erase | keep | metaFlow => exact ⟨rfl, .inl ⟨⟨_, rfl⟩, rfl⟩⟩

/-! ## Mutual exclusion -/

end Publisher

/-- How many events of the history a call has behind it. -/
def PublisherPc.rank : PublisherPc → Nat
  | .absent => 0
  | .lock => 1
  | .locked _ | .unlocked => 2
  | .returned => 3

namespace Publisher

variable {K M I : Type} [DecidableEq I] {s s' : Publisher K M I} {i : I}

/-- The call that holds the lock is the one that is behind it; and the history takes each call
through its events. -/
structure Consistent (s : Publisher K M I) : Prop where
  holder : ∀ i, s.subscribersLock = some i ↔ ∃ it, s.calls i = .locked it
  sequenced : Sequenced s.trace
  progress : ∀ i, progress s.trace i = (s.calls i).rank

/-- A step that is an event of the history. -/
theorem Consistent.event (hs : s.Consistent) {e : HistoryEvent I} {pc : PublisherPc}
    (htrace : s'.trace = s.trace ++ [e]) (hcalls : s'.calls = Function.update s.calls e.op pc)
    (hbefore : (s.calls e.op).rank = e.rank) (hafter : pc.rank = e.rank + 1)
    (hholder : ∀ j, s'.subscribersLock = some j ↔ ∃ it, s'.calls j = .locked it) :
    s'.Consistent := by
  refine ⟨hholder, ?_, fun j => ?_⟩
  · rw [htrace]
    exact hs.sequenced.concat ((hs.progress _).trans hbefore)
  · rw [htrace, progress_concat, hs.progress, hcalls, Function.update_apply]
    by_cases hj : j = e.op
    · rw [hj, if_pos rfl, if_pos rfl, hafter, hbefore]
    · rw [if_neg hj, if_neg (Ne.symm hj), Nat.add_zero]

/-- A step that no other call sees in the history. -/
theorem Consistent.silent (hs : s.Consistent) {pc : PublisherPc} (htrace : s'.trace = s.trace)
    (hcalls : s'.calls = Function.update s.calls i pc) (hrank : pc.rank = (s.calls i).rank)
    (hholder : ∀ j, s'.subscribersLock = some j ↔ ∃ it, s'.calls j = .locked it) :
    s'.Consistent := by
  refine ⟨hholder, htrace ▸ hs.sequenced, fun j => ?_⟩
  rw [htrace, hs.progress, hcalls, Function.update_apply]
  split
  · next hj => rw [hj, hrank]
  · rfl

/-- A call that was not behind the lock, and is not now. -/
theorem Consistent.holder_beside (hs : s.Consistent) {pc : PublisherPc}
    (hlock : s'.subscribersLock = s.subscribersLock)
    (hcalls : s'.calls = Function.update s.calls i pc) (hold : ∀ it, s.calls i ≠ .locked it)
    (hnew : ∀ it, pc ≠ .locked it) (j : I) :
    s'.subscribersLock = some j ↔ ∃ it, s'.calls j = .locked it := by
  rw [hlock, hs.holder, hcalls, Function.update_apply]
  split
  · next hj =>
      rw [hj]
      exact ⟨fun ⟨it, hx⟩ => absurd hx (hold it), fun ⟨it, hx⟩ => absurd hx (hnew it)⟩
  · rfl

variable [DecidableEq K] {op : I → PublisherOp K M}

theorem bodyStep_consistent {it : Nat} {o : PublisherOp K M} (h : BodyStep s i it o s')
    (hp : s.calls i = .locked it) (hs : s.Consistent) : s'.Consistent := by
  have hlock : s.subscribersLock = some i := (hs.holder i).mpr ⟨it, hp⟩
  obtain ⟨htrace, ⟨⟨it', hcalls⟩, hsame⟩ | ⟨hcalls, hfree⟩⟩ := h.frame
  · refine hs.silent htrace hcalls (by rw [hp]; rfl) fun j => ?_
    rw [hsame, hs.holder, hcalls, Function.update_apply]
    split
    · next hj =>
        rw [hj]
        exact ⟨fun _ => ⟨it', rfl⟩, fun _ => ⟨it, hp⟩⟩
    · rfl
  · refine hs.silent htrace hcalls (by rw [hp]; rfl) fun j => ?_
    rw [hfree, hcalls, Function.update_apply]
    refine ⟨fun hx => (nomatch hx), ?_⟩
    rintro ⟨it', hx⟩
    split at hx
    · cases hx
    · next hj =>
        -- no other call was behind the lock
        have hother := (hs.holder j).mpr ⟨it', hx⟩
        rw [hlock] at hother
        exact absurd (Option.some.inj hother).symm hj

theorem step_consistent (h : Step op s s') (hs : s.Consistent) : s'.Consistent := by
  cases h with
  | call i hp =>
      exact hs.event (e := .call i) rfl rfl (by rw [HistoryEvent.op, hp]; rfl) rfl
        (hs.holder_beside (i := i) rfl rfl (by simp [hp]) (by simp))
  | lock i hp hfree =>
      refine hs.event (e := .point i) rfl rfl (by rw [HistoryEvent.op, hp]; rfl) rfl fun j => ?_
      show some i = some j ↔ ∃ it, Function.update s.calls i (.locked 0) j = .locked it
      rw [Function.update_apply]
      split
      · next hj =>
          rw [hj]
          exact ⟨fun _ => ⟨0, rfl⟩, fun _ => rfl⟩
      · next hj =>
          refine ⟨fun hx => absurd (Option.some.inj hx).symm hj, fun hx => ?_⟩
          rw [← hs.holder, hfree] at hx
          cases hx
  | body i it hp => exact bodyStep_consistent (body_cases s i it (op i)) hp hs
  | ret i hp =>
      exact hs.event (e := .ret i) rfl rfl (by rw [HistoryEvent.op, hp]; rfl) rfl
        (hs.holder_beside (i := i) rfl rfl (by simp [hp]) (by simp))

theorem reachable_consistent (h : (vpMetaPublisher op).Reachable s) : s.Consistent := by
  apply h.invariant
  · rintro _ rfl
    refine ⟨fun i => ⟨fun hx => (nomatch hx), fun ⟨it, hx⟩ => (nomatch hx)⟩, .nil, fun i => rfl⟩
  · intro s s' a _ hs _ hstep
    exact step_consistent (step_cases hstep) hs

end Publisher

end VideoStream
