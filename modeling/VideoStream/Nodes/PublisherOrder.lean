import Mathlib.Data.List.Induction
import VideoStream.Nodes.Publisher

/-!
# The order of the calls of a publisher

`AtomicPublisher` is the publisher as its callers should see it: every call happens at once. A call
of the code takes effect when it takes `subscribers_lock`. From then on nobody else touches
`subscribers` or reaches a subscriber, so the rest of the loop can be done at once (`finish`), and
every further step behind the lock leaves that outcome as it is (`abs_body`). So the calls in the
order of the lock explain the run (`publishes_in_one_order`).
-/

namespace VideoStream

open Library

/-- The subscribers, and what they have been given. -/
structure AtomicPublisher (K M I : Type) where
  subscribers : List K
  received : K → List (I × M)

namespace AtomicPublisher

variable {K M I : Type} [DecidableEq K]

def start : AtomicPublisher K M I := ⟨[], fun _ => []⟩

/-- `push_meta` gives the meta to each subscriber as many times as it is subscribed. -/
def apply (op : I → PublisherOp K M) (a : AtomicPublisher K M I) (i : I) : AtomicPublisher K M I :=
  match op i with
  | .addSubscriber k => { a with subscribers := a.subscribers ++ [k] }
  | .removeSubscriber k => { a with subscribers := a.subscribers.filter (· ≠ k) }
  | .pushMeta m =>
      { a with
        received := fun k => a.received k ++ List.replicate (a.subscribers.count k) (i, m) }

/-- The calls in `order`, one after the other. -/
def replay (op : I → PublisherOp K M) (order : List I) : AtomicPublisher K M I :=
  order.foldl (apply op) start

@[simp] theorem replay_concat (op : I → PublisherOp K M) (order : List I) (i : I) :
    replay op (order ++ [i]) = (replay op order).apply op i := by
  rw [replay, List.foldl_append]
  rfl

variable {op : I → PublisherOp K M} {order : List I} {i j r p : I} {k : K} {m m' : M}

/-- An entry comes from a call of `push_meta` at which the subscriber was subscribed. -/
theorem mem_received (h : (p, m) ∈ (replay op order).received k) :
    op p = .pushMeta m ∧ ∃ a b, order = a ++ p :: b ∧ k ∈ (replay op a).subscribers := by
  induction order using List.reverseRecOn with
  | nil => cases h
  | append_singleton order i ih =>
      rw [replay_concat, apply] at h
      have hold (hx : (p, m) ∈ (replay op order).received k) :
          op p = .pushMeta m ∧ ∃ a b, order ++ [i] = a ++ p :: b ∧ k ∈ (replay op a).subscribers := by
        obtain ⟨hop, a, b, rfl, hk⟩ := ih hx
        exact ⟨hop, a, b ++ [i], by simp, hk⟩
      cases hi : op i with
      | addSubscriber k' | removeSubscriber k' =>
          simp only [hi] at h
          exact hold h
      | pushMeta m' =>
          simp only [hi] at h
          rcases List.mem_append.mp h with h | h
          · exact hold h
          · obtain ⟨hcount, heq⟩ := List.mem_replicate.mp h
            obtain ⟨rfl, rfl⟩ := Prod.mk.inj heq
            exact ⟨hi, order, [], rfl, List.count_pos_iff.mp (Nat.pos_of_ne_zero hcount)⟩

/-- A subscriber that was removed is not subscribed until it is added again. -/
theorem not_mem_subscribers (hr : op r = .removeSubscriber k) {a b : List I}
    (hadd : ∀ x ∈ b, op x ≠ .addSubscriber k) :
    k ∉ (replay op (a ++ r :: b)).subscribers := by
  induction b using List.reverseRecOn with
  | nil =>
      rw [replay_concat, apply]
      simp [hr]
  | append_singleton b x ih =>
      have hold := ih fun y hy => hadd y (List.mem_append_left _ hy)
      have hx := hadd x (by simp)
      rw [← List.cons_append, ← List.append_assoc, replay_concat, apply]
      cases ho : op x with
      | addSubscriber k' =>
          have hne : k ≠ k' := by
            rintro rfl
            exact hx ho
          simpa [hne] using hold
      | removeSubscriber k' =>
          intro hk
          exact hold (List.mem_filter.mp hk).1
      | pushMeta m => exact hold

/-- A subscriber gets its metas in the order of the calls of `push_meta`. -/
theorem received_in_order (h : [(i, m), (j, m')].Sublist ((replay op order).received k)) :
    i = j ∨ [i, j].Sublist order := by
  induction order using List.reverseRecOn with
  | nil => cases h
  | append_singleton order x ih =>
      rw [replay_concat, apply] at h
      have hold (hx : [(i, m), (j, m')].Sublist ((replay op order).received k)) :
          i = j ∨ [i, j].Sublist (order ++ [x]) :=
        (ih hx).imp_right fun h => h.trans (List.sublist_append_left _ _)
      cases hx : op x with
      | addSubscriber k' | removeSubscriber k' =>
          simp only [hx] at h
          exact hold h
      | pushMeta m'' =>
          simp only [hx] at h
          obtain ⟨a, b, hab, ha, hb⟩ := List.sublist_append_iff.mp h
          have hnew {c : I} {n : M} (hc : (c, n) ∈ b) : c = x :=
            congrArg Prod.fst (List.mem_replicate.mp (hb.subset hc)).2
          -- where the two entries stand: old or new
          rcases a with _ | ⟨y, _ | ⟨z, a⟩⟩
          · obtain rfl : _ = b := hab
            left
            rw [hnew (c := i) (n := m) (by simp), hnew (c := j) (n := m') (by simp)]
          · obtain ⟨rfl, rfl⟩ := List.cons.inj hab
            right
            rw [hnew (c := j) (n := m') (by simp)]
            obtain ⟨-, c, d, rfl, -⟩ := mem_received (ha.subset (List.mem_singleton_self _))
            simp
          · obtain ⟨rfl, hzb⟩ := List.cons.inj hab
            obtain ⟨rfl, hnil⟩ := List.cons.inj hzb
            obtain ⟨rfl, rfl⟩ := List.append_eq_nil_iff.mp hnil.symm
            exact hold ha

end AtomicPublisher

namespace Publisher

variable {K M I : Type} [DecidableEq K] {op : I → PublisherOp K M}
variable {s s' : Publisher K M I} {i : I}

/-- The vector at the iterator. -/
theorem splitAt_of_getElem? {α : Type} {l : List α} {n : Nat} {x : α} (h : l[n]? = some x) :
    ∃ a b, l = a ++ x :: b ∧ a.length = n := by
  obtain ⟨hlt, rfl⟩ := List.getElem?_eq_some_iff.mp h
  refine ⟨l.take n, l.drop (n + 1), ?_, List.length_take_of_le (Nat.le_of_lt hlt)⟩
  rw [← List.drop_eq_getElem_cons hlt, List.take_append_drop]

/-- What is still to be done behind the lock, done at once. -/
def finish (s : Publisher K M I) (i : I) (it : Nat) : PublisherOp K M → AtomicPublisher K M I
  | .addSubscriber k => ⟨if it = 0 then s.subscribers ++ [k] else s.subscribers, s.received⟩
  | .removeSubscriber k =>
      ⟨s.subscribers.take it ++ (s.subscribers.drop it).filter (· ≠ k), s.received⟩
  | .pushMeta m =>
      ⟨s.subscribers,
        fun k => s.received k ++ List.replicate ((s.subscribers.drop it).count k) (i, m)⟩

/-- The publisher after the call that holds the lock. -/
def abs (op : I → PublisherOp K M) (s : Publisher K M I) : AtomicPublisher K M I :=
  match s.subscribersLock with
  | none => ⟨s.subscribers, s.received⟩
  | some i =>
      match s.calls i with
      | .locked it => s.finish i it (op i)
      | _ => ⟨s.subscribers, s.received⟩

theorem abs_free (h : s.subscribersLock = none) : s.abs op = ⟨s.subscribers, s.received⟩ := by
  rw [abs, h]

theorem abs_locked {it : Nat} (h : s.subscribersLock = some i) (hp : s.calls i = .locked it) :
    s.abs op = s.finish i it (op i) := by
  rw [abs, h]
  simp only [hp]

/-- What the call of `push_meta` that holds the lock has still to give. -/
def owed (op : I → PublisherOp K M) (s : Publisher K M I) (k : K) : List (I × M) :=
  match s.subscribersLock with
  | none => []
  | some i =>
      match s.calls i, op i with
      | .locked it, .pushMeta m => List.replicate ((s.subscribers.drop it).count k) (i, m)
      | _, _ => []

theorem abs_received (s : Publisher K M I) (k : K) :
    (s.abs op).received k = s.received k ++ s.owed op k := by
  unfold abs owed
  cases s.subscribersLock with
  | none => simp
  | some i => cases hp : s.calls i <;> cases ho : op i <;> simp [hp, ho, finish]

/-! ## Runs that a sequence of calls explains -/

/-- The calls in `order`, one after the other, explain the run: `order` is a linearization of it, and
what the subscribers have been given, and are about to be given by the call that holds the lock, is
what these calls give them. -/
structure ExplainedBy (op : I → PublisherOp K M) (s : Publisher K M I) (order : List I) : Prop where
  linearization : IsLinearization s.trace order
  received : ∀ k, s.received k ++ s.owed op k = (AtomicPublisher.replay op order).received k
  subscribers : s.subscribersLock = none →
    s.subscribers = (AtomicPublisher.replay op order).subscribers

theorem ExplainedBy.mem {order : List I} (hs : s.ExplainedBy op order) {k : K} {e : I × M}
    (he : e ∈ s.received k) : e ∈ (AtomicPublisher.replay op order).received k := by
  rw [← hs.received]
  exact List.mem_append_left _ he

/-- A push that began after the subscriber had been removed gives it nothing, unless the subscriber
was added again. -/
theorem ExplainedBy.added_again {order : List I} (hs : s.ExplainedBy op order) {k : K} {r p : I}
    {m : M} (hr : op r = .removeSubscriber k) (hrp : Precedes s.trace r p)
    (hp : (p, m) ∈ s.received k) : ∃ a, op a = .addSubscriber k ∧ [r, a, p].Sublist order := by
  obtain ⟨-, before, after, rfl, hk⟩ := AtomicPublisher.mem_received (hs.mem hp)
  have hsub := hs.linearization.realTime r p hrp (by simp)
  have hmem := mem_of_pair_sublist hs.linearization.nodup hsub
  obtain ⟨c, d, rfl⟩ := List.append_of_mem hmem
  by_contra hnone
  refine AtomicPublisher.not_mem_subscribers hr (b := d) (fun x hx ho => ?_) hk
  obtain ⟨u, v, rfl⟩ := List.append_of_mem hx
  refine hnone ⟨x, ho, ?_⟩
  simp

/-! ## The steps and the calls -/

variable [DecidableEq I]

theorem abs_goto {it : Nat} (h : s.subscribersLock = some i) :
    (s.goto i (.locked it)).abs op = s.finish i it (op i) :=
  abs_locked h (Function.update_self i _ _)

theorem abs_unlock : (s.unlock i).abs op = ⟨s.subscribers, s.received⟩ := abs_free rfl

/-- A step of a call that does not hold the lock. -/
theorem abs_beside {pc : PublisherPc} (hlock : s'.subscribersLock = s.subscribersLock)
    (hsubscribers : s'.subscribers = s.subscribers) (hreceived : s'.received = s.received)
    (hcalls : s'.calls = Function.update s.calls i pc) (hi : s.subscribersLock ≠ some i) :
    s'.abs op = s.abs op := by
  unfold abs finish
  rw [hlock, hsubscribers, hreceived, hcalls]
  cases hj : s.subscribersLock with
  | none => rfl
  | some j =>
      have hne : j ≠ i := by
        rintro rfl
        exact hi hj
      simp only [Function.update_of_ne hne]

/-- Taking the lock does the whole call at once. -/
theorem abs_lock (hfree : s.subscribersLock = none) :
    abs op (({ s with subscribersLock := some i }.log (.point i)).goto i (.locked 0)) =
      (s.abs op).apply op i := by
  rw [abs_goto (by rfl), abs_free hfree]
  unfold finish AtomicPublisher.apply
  cases op i <;> rfl

/-- Going on behind the lock changes nothing any more. -/
theorem abs_body {it : Nat} (h : BodyStep s i it (op i) s') (hlock : s.subscribersLock = some i)
    (hp : s.calls i = .locked it) : s'.abs op = s.abs op := by
  rw [abs_locked hlock hp]
  generalize ho : op i = o at h
  cases h with
  | pushBack k hit =>
      rw [abs_goto (by exact hlock), ho, hit]
      rfl
  | added k hit =>
      rw [abs_unlock, finish, if_neg hit]
  | erase k hk =>
      -- the element that `erase` removes here is one that the filter does not keep
      rw [abs_goto (by exact hlock), ho]
      obtain ⟨a, b, hab, rfl⟩ := splitAt_of_getElem? hk
      simp [finish, hab, List.eraseIdx_append_of_length_le]
  | keep k x hx hne =>
      rw [abs_goto hlock, ho]
      obtain ⟨a, b, hab, rfl⟩ := splitAt_of_getElem? hx
      have hlen : a.length ≤ a.length + 1 := Nat.le_succ _
      simp [finish, hab, hne, List.take_append, List.drop_append, List.take_of_length_le hlen,
        List.drop_of_length_le hlen]
  | removed k hk =>
      have hlen := List.getElem?_eq_none_iff.mp hk
      simp [abs_unlock, finish, List.take_of_length_le hlen, List.drop_of_length_le hlen]
  | metaFlow m k hk =>
      -- one copy less is owed to `k`, and it has received one more
      rw [abs_goto (by exact hlock), ho]
      obtain ⟨a, b, hab, rfl⟩ := splitAt_of_getElem? hk
      have hlen : a.length ≤ a.length + 1 := Nat.le_succ _
      simp only [finish]
      congr 1
      funext x
      by_cases hx : x = k
      · subst hx
        simp [hab, List.drop_append, List.drop_of_length_le hlen, List.replicate_succ]
      · simp [hab, List.drop_append, List.drop_of_length_le hlen, hx, Ne.symm hx]
  | pushed m hk =>
      have hlen := List.getElem?_eq_none_iff.mp hk
      simp [abs_unlock, finish, List.drop_of_length_le hlen]

/-! ## The replay of the calls -/

theorem reachable_abs (h : (vpMetaPublisher op).Reachable s) :
    s.abs op = AtomicPublisher.replay op (points s.trace) := by
  apply System.ReachableBy.replay Publisher.trace (Publisher.abs op) (AtomicPublisher.apply op) _ _ h
  · rintro _ rfl
    exact ⟨rfl, rfl⟩
  · intro s s' a hr hstep
    have hs := reachable_consistent hr
    cases step_cases hstep with
    | call i hp =>
        -- a call that has just begun does not hold the lock
        left
        refine ⟨by simp [goto, log, HistoryEvent.pointOf], abs_beside rfl rfl rfl rfl fun hi => ?_⟩
        obtain ⟨it, hx⟩ := (hs.holder i).mp hi
        rw [hp] at hx
        cases hx
    | lock i hp hfree =>
        right
        exact ⟨i, by simp [goto, log, HistoryEvent.pointOf], abs_lock hfree⟩
    | body i it hp =>
        left
        have hbody := body_cases s i it (op i)
        refine ⟨?_, abs_body hbody ((hs.holder i).mpr ⟨it, hp⟩) hp⟩
        rw [hbody.frame.1]
    | ret i hp =>
        left
        refine ⟨by simp [goto, log, HistoryEvent.pointOf], abs_beside rfl rfl rfl rfl fun hi => ?_⟩
        obtain ⟨it, hx⟩ := (hs.holder i).mp hi
        rw [hp] at hx
        cases hx

theorem reachable_explainedBy (h : (vpMetaPublisher op).Reachable s) :
    s.ExplainedBy op (points s.trace) where
  linearization := (reachable_consistent h).sequenced.isLinearization_points
  received k := by rw [← reachable_abs h, abs_received]
  subscribers hfree := by rw [← reachable_abs h, abs_free hfree]

end Publisher

/-- Publishing is linearizable: the calls that have taken the lock, in the order in which they took
it, explain what the subscribers have been given. A call that has not taken the lock yet has had no
effect. In particular all subscribers get the metas in this one order, and none after its removal
until it is added again. -/
theorem publishes_in_one_order {K M I : Type} [DecidableEq K] [DecidableEq I]
    {op : I → PublisherOp K M} {s : Publisher K M I} (h : (vpMetaPublisher op).Reachable s) :
    ∃ order : List I, s.ExplainedBy op order ∧
      (∀ k i j m m', [(i, m), (j, m')].Sublist (s.received k) →
        i = j ∨ [i, j].Sublist order) ∧
      (∀ k r p m, op r = .removeSubscriber k → Precedes s.trace r p → (p, m) ∈ s.received k →
        ∃ a, op a = .addSubscriber k ∧ [r, a, p].Sublist order) := by
  have hs := Publisher.reachable_explainedBy h
  refine ⟨points s.trace, hs, ?_, ?_⟩
  · intro k i j m m' hsub
    have hreplay : [(i, m), (j, m')].Sublist
        ((AtomicPublisher.replay op (points s.trace)).received k) := by
      rw [← hs.received]
      exact hsub.trans (List.sublist_append_left _ _)
    exact AtomicPublisher.received_in_order hreplay
  · intro k r p m hr hrp hp
    exact hs.added_again hr hrp hp

/-- The calls of three threads: `0` subscribes twice, and unsubscribes; three metas are pushed. -/
def subscribeAndPush : Nat → PublisherOp Nat Nat
  | 0 | 1 => .addSubscriber 0
  | 2 => .removeSubscriber 0
  | i => .pushMeta i

theorem publishes_in_one_order_subscribeAndPush :
    ∃ s : Publisher Nat Nat Nat, (vpMetaPublisher subscribeAndPush).Reachable s ∧
      s.received 0 = [(3, 3), (4, 4), (4, 4)] ∧
        ∃ order : List Nat, s.ExplainedBy subscribeAndPush order ∧
          (∀ k i j m m', [(i, m), (j, m')].Sublist (s.received k) →
            i = j ∨ [i, j].Sublist order) ∧
          (∀ k r p m, subscribeAndPush r = .removeSubscriber k → Precedes s.trace r p →
            (p, m) ∈ s.received k →
              ∃ a, subscribeAndPush a = .addSubscriber k ∧ [r, a, p].Sublist order) := by
  have hinit : (vpMetaPublisher subscribeAndPush).Reachable Publisher.start := .init rfl
  obtain ⟨s, hr, hp⟩ := hinit.exists_of_run
    (p := fun s => s.received 0 = [(3, 3), (4, 4), (4, 4)])
    [.call 0, .step 0, .step 0, .call 3, .step 0, .step 0, .step 3, .call 1, .step 3, .step 3,
      .step 3, .step 1, .call 4, .step 1, .step 1, .step 1, .step 4, .step 4, .call 2, .step 4,
      .step 4, .step 4, .step 2, .step 2, .step 2, .step 2, .step 2, .call 5, .step 5, .step 5]
    (by decide)
  exact ⟨s, hr, hp, publishes_in_one_order hr⟩

end VideoStream
