import VideoStream.Library.Fifo
import VideoStream.Library.SharedObject

/-!
# `ThreadSafeQueue`

The queue behind `data_m_` and `notempty_cond_`. Every member function takes the mutex once;
`WaitAndPop` and `WaitAndTryPop` wait until the queue is not empty, `WaitAndTryPop` for `rel_time`
at most, which is left open here: its deadline may pass at any time. `Push` notifies one of the
waiting calls.

* `queue_linearizable` — the calls take effect one by one as on a plain FIFO queue; every value that
  was pushed was taken exactly once, in the order of the pushes, or is in the queue.
* `pop_removes_front` — while nobody else removes values, a `Pop` behind a `Front` removes the value
  that `Front` has returned.
* `queue_not_stranded` — no call waits in front of a value for good.
-/

namespace VideoStream

open Library

/-- The member functions of `ThreadSafeQueue`. -/
inductive QueueOp (T : Type) where
  | front
  | pop
  | tryPop
  | waitAndPop
  | waitAndTryPop
  | push (newValue : T)
  | empty
  | size
  deriving DecidableEq

/-- What the member functions return. `popped`: the `value` that was filled in, `none` with the
return value `false`. `Pop` returns nothing; `dropped` says what it removed. -/
inductive QueueResult (T : Type) where
  | value (v : T)
  | threw (what : String)
  | popped (v : Option T)
  | dropped (v : Option T)
  | done
  | empty (b : Bool)
  | size (n : UInt32)
  deriving DecidableEq

structure ThreadSafeQueue (T : Type) where
  q : List T
  deriving DecidableEq

namespace ThreadSafeQueue

variable {T : Type}

def front (s : ThreadSafeQueue T) : ThreadSafeQueue T × QueueResult T :=
  match s.q with
  | [] => (s, .threw "ThreadSafeQueue: queue is empty")
  | v :: _ => (s, .value v)

def pop (s : ThreadSafeQueue T) : ThreadSafeQueue T × QueueResult T :=
  match s.q with
  | [] => (s, .dropped none)
  | v :: q => ({ s with q := q }, .dropped (some v))

def tryPop (s : ThreadSafeQueue T) : ThreadSafeQueue T × QueueResult T :=
  match s.q with
  | [] => (s, .popped none)
  | v :: q => ({ s with q := q }, .popped (some v))

/-- `none`: the predicate of the `wait` is false. -/
def waitAndPop (s : ThreadSafeQueue T) : Option (ThreadSafeQueue T × QueueResult T) :=
  match s.q with
  | [] => none
  | v :: q => some ({ s with q := q }, .value v)

/-- `none`: the predicate of the `wait_for` is false. -/
def waitAndTryPop (s : ThreadSafeQueue T) : Option (ThreadSafeQueue T × QueueResult T) :=
  match s.q with
  | [] => none
  | v :: q => some ({ s with q := q }, .popped (some v))

def push (s : ThreadSafeQueue T) (newValue : T) : ThreadSafeQueue T × QueueResult T :=
  ({ s with q := s.q ++ [newValue] }, .done)

def empty (s : ThreadSafeQueue T) : ThreadSafeQueue T × QueueResult T := (s, .empty s.q.isEmpty)

def size (s : ThreadSafeQueue T) : ThreadSafeQueue T × QueueResult T :=
  (s, .size (UInt32.ofNat s.q.length))

end ThreadSafeQueue

def threadSafeQueue (T : Type) : SharedObject (QueueOp T) (ThreadSafeQueue T) (QueueResult T) where
  data := ⟨[]⟩
  body
    | .front, s => some s.front
    | .pop, s => some s.pop
    | .tryPop, s => some s.tryPop
    | .waitAndPop, s => s.waitAndPop
    | .waitAndTryPop, s => s.waitAndTryPop
    | .push v, s => some (s.push v)
    | .empty, s => some s.empty
    | .size, s => some s.size
  expires
    | .waitAndTryPop => some (.popped none)
    | _ => none
  notifies
    | .push _ => true
    | _ => false

abbrev QueueState (I T : Type) := SharedState I (ThreadSafeQueue T) (QueueResult T)

variable {T I : Type}

/-- The value that an operation put into the queue. -/
def QueueOp.pushed : QueueOp T × QueueResult T → List T
  | (.push v, _) => [v]
  | _ => []

/-- The value that an operation took out of the queue. -/
def QueueOp.taken : QueueOp T × QueueResult T → List T
  | (.pop, .dropped v) | (.tryPop, .popped v) | (.waitAndTryPop, .popped v) => v.toList
  | (.waitAndPop, .value v) => [v]
  | _ => []

/-- The operation may take a value out of the queue. -/
def QueueOp.Removes : QueueOp T → Prop
  | .pop | .tryPop | .waitAndPop | .waitAndTryPop => True
  | _ => False

namespace ThreadSafeQueue

variable {s s' : ThreadSafeQueue T} {o : QueueOp T} {r : QueueResult T}
  {l : List (QueueOp T × QueueResult T)}

/-! ## One operation -/

/-- An operation takes values at the front and adds values at the end. -/
theorem acts_fifo (h : (threadSafeQueue T).Acts s o r s') :
    QueueOp.taken (o, r) ++ s'.q = s.q ++ QueueOp.pushed (o, r) := by
  obtain ⟨q⟩ := s
  rcases h with hbody | ⟨hnone, hr, rfl⟩
  · cases o with
    | push v =>
        cases hbody
        rfl
    | front | empty | size =>
        cases q <;> (cases hbody; simp [QueueOp.taken, QueueOp.pushed])
    | pop | tryPop =>
        cases q <;> (cases hbody; simp [QueueOp.taken, QueueOp.pushed])
    | waitAndPop | waitAndTryPop =>
        cases q with
        | nil => cases hbody
        | cons v q =>
            cases hbody
            exact (List.append_nil _).symm
  · cases o with
    | waitAndTryPop =>
        cases hr
        exact (List.append_nil _).symm
    | _ => cases hr

/-- What was taken, followed by what is in the queue, is what was pushed. -/
theorem legal_balanced (h : (threadSafeQueue T).Legal l s) :
    Fifo.Balanced QueueOp.pushed QueueOp.taken l s.q := by
  induction l using List.reverseRecOn generalizing s with
  | nil =>
      cases h
      exact .nil
  | append_singleton l x ih =>
      obtain ⟨s₁, s₂, hl, hact, hnil⟩ := h.split
      cases hnil
      apply (ih hl).append
      simpa using acts_fifo hact

/-- What does not remove leaves the front of a queue that is not empty. -/
theorem acts_head (h : (threadSafeQueue T).Acts s o r s') (ho : ¬ o.Removes) {v : T}
    (hv : s.q.head? = some v) : s'.q.head? = some v := by
  have hfifo := acts_fifo h
  have htaken : QueueOp.taken (o, r) = [] := by
    cases o with
    | front | push _ | empty | size => rfl
    | pop | tryPop | waitAndPop | waitAndTryPop => exact absurd trivial ho
  rw [htaken, List.nil_append] at hfifo
  rw [hfifo, List.head?_append, hv]
  rfl

theorem runs_head (h : (threadSafeQueue T).Runs s l s') (hl : ∀ x ∈ l, ¬ x.1.Removes) {v : T}
    (hv : s.q.head? = some v) : s'.q.head? = some v := by
  induction h with
  | nil => exact hv
  | @cons s s₁ s' o r l hact _ ih =>
      apply ih fun x hx => hl x (List.mem_cons_of_mem _ hx)
      exact acts_head hact (hl (o, r) (List.mem_cons_self ..)) hv

theorem acts_front {v : T} (h : (threadSafeQueue T).Acts s .front (.value v) s') :
    s' = s ∧ s.q.head? = some v := by
  obtain ⟨q⟩ := s
  rcases h with hbody | ⟨hnone, -⟩
  · cases q with
    | nil => cases hbody
    | cons w q =>
        cases hbody
        exact ⟨rfl, rfl⟩
  · cases hnone

theorem acts_pop (h : (threadSafeQueue T).Acts s .pop r s') : r = .dropped s.q.head? := by
  obtain ⟨q⟩ := s
  rcases h with hbody | ⟨hnone, -⟩
  · cases q <;> (cases hbody; rfl)
  · cases hnone

theorem acts_waitAndPop (h : (threadSafeQueue T).Acts s .waitAndPop r s') : ∃ v, r = .value v := by
  obtain ⟨q⟩ := s
  rcases h with hbody | ⟨-, hr, -⟩
  · cases q with
    | nil => cases hbody
    | cons v q =>
        cases hbody
        exact ⟨v, rfl⟩
  · cases hr

/-- The entries that a call waits for. -/
theorem counts_length : (threadSafeQueue T).Counts fun s => s.q.length where
  waits {o s} h := by
    obtain ⟨q⟩ := s
    cases o with
    | waitAndPop | waitAndTryPop =>
        cases q with
        | nil => rfl
        | cons v q => cases h
    | _ => cases h
  takes {o s₀ s s' r} hnone hbody := by
    obtain ⟨q⟩ := s
    cases o with
    | waitAndPop | waitAndTryPop =>
        cases q with
        | nil => cases hbody
        | cons v q =>
            cases hbody
            exact Nat.lt_succ_self _
    | _ => cases hnone
  notifies {o s s' r} hbody hn := by
    cases o with
    | push v =>
        cases hbody
        exact (List.length_append ..).le
    | _ => cases hn
  quiet {o s s' r} hbody hn := by
    have hlen := congrArg List.length (acts_fifo (.inl hbody))
    have hpushed : QueueOp.pushed (o, r) = [] := by
      cases o with
      | push v => cases hn
      | _ => rfl
    rw [hpushed, List.append_nil, List.length_append] at hlen
    show s'.q.length ≤ s.q.length
    omega

end ThreadSafeQueue

/-! ## The callers -/

variable [DecidableEq I] {op : I → QueueOp T} {s : QueueState I T}

/-- The values that were taken, and those in the queue, are the values that were pushed. -/
theorem ThreadSafeQueue.reachable_balanced (h : ((threadSafeQueue T).system op).Reachable s) :
    (s.effects op).flatMap QueueOp.taken ++ s.data.q = (s.effects op).flatMap QueueOp.pushed :=
  legal_balanced (SharedObject.linearizable h).2.1

/-- The calls of three threads: two wait, one of them not for long, and two values are pushed. -/
def waitAndPush : Fin 6 → QueueOp Nat
  | 0 => .waitAndTryPop
  | 1 => .waitAndPop
  | 2 => .push 7
  | 3 => .push 8
  | 4 => .front
  | 5 => .pop

/-- While every other call that may remove a value returned before the `Front` or comes after the
`Pop`, the `Pop` removes what `Front` has returned. -/
theorem pop_removes_front {f p : I} {v : T} {r : QueueResult T}
    (h : ((threadSafeQueue T).system op).Reachable s) (hf : op f = .front) (hp : op p = .pop)
    (hv : s.calls f = .returned (.value v)) (hr : s.calls p = .returned r)
    (hfp : Precedes s.trace f p)
    (halone : ∀ c, (op c).Removes → c ≠ p → .call c ∈ s.trace →
      Precedes s.trace c f ∨ Precedes s.trace p c) : r = .dropped (some v) := by
  obtain ⟨horder, hlegal, hresult⟩ := SharedObject.linearizable h
  have hfmem : (f, .value v) ∈ s.done := hresult f _ hv
  obtain ⟨l, e, hl⟩ := List.append_of_mem (hresult p r hr)
  have hsplit : s.done.map Prod.fst = l.map Prod.fst ++ p :: e.map Prod.fst := by simp [hl]
  -- `f` took effect before `p`
  have hfl : (f, .value v) ∈ l := by
    have hnodup := horder.nodup
    have hsub := horder.realTime f p hfp (by simp [hsplit])
    rw [hsplit] at hnodup hsub
    obtain ⟨x, hx, hxf⟩ := List.mem_map.mp (mem_of_pair_sublist hnodup hsub)
    have hxdone : x ∈ s.done := hl ▸ List.mem_append_left _ hx
    rwa [List.inj_on_of_nodup_map horder.nodup hxdone hfmem hxf] at hx
  obtain ⟨a, b, rfl⟩ := List.append_of_mem hfl
  have horders : s.done.map Prod.fst =
      a.map Prod.fst ++ f :: (b.map Prod.fst ++ p :: e.map Prod.fst) := by simp [hl]
  -- nobody removed a value between them
  have hb : ∀ x ∈ b, ¬ (op x.1).Removes := by
    intro x hx hremoves
    have hxb : x.1 ∈ b.map Prod.fst := List.mem_map_of_mem hx
    have hnodup := horder.nodup
    rw [horders] at hnodup
    obtain ⟨hxp, hbefore, hbehind⟩ :=
      not_pair_sublist_between hnodup hxb
    rw [← horders] at hbefore hbehind
    have hxmem : x.1 ∈ s.done.map Prod.fst := by
      rw [horders]
      exact List.mem_append_right _ (List.mem_cons_of_mem _ (List.mem_append_left _ hxb))
    rcases halone x.1 hremoves hxp (horder.called _ hxmem) with hxf | hpx
    · exact hbefore (horder.realTime x.1 f hxf (List.mem_map_of_mem (f := Prod.fst) hfmem))
    · exact hbehind (horder.realTime p x.1 hpx hxmem)
  have hlegal' : (threadSafeQueue T).Legal
      (a.map (fun p => (op p.1, p.2)) ++ (.front, .value v) ::
        (b.map (fun p => (op p.1, p.2)) ++ (.pop, r) :: e.map fun p => (op p.1, p.2))) s.data := by
    have heffects := hlegal
    rw [SharedState.effects, hl] at heffects
    simpa [hf, hp] using heffects
  obtain ⟨s₁, s₂, -, hfront, hrest⟩ := hlegal'.split
  obtain ⟨s₃, hbetween, hrest⟩ := SharedObject.runs_append.mp hrest
  obtain ⟨rfl, hhead⟩ := ThreadSafeQueue.acts_front hfront
  have hstays : s₃.q.head? = some v := by
    apply ThreadSafeQueue.runs_head hbetween _ hhead
    intro x hx
    obtain ⟨y, hy, rfl⟩ := List.mem_map.mp hx
    exact hb y hy
  cases hrest with
  | cons hpop _ => rw [ThreadSafeQueue.acts_pop hpop, hstays]

theorem pop_removes_front_waitAndPush :
    ∃ s : QueueState (Fin 6) Nat, s.calls 4 = .returned (.value 7) ∧
      s.calls 5 = .returned (.dropped (some 7)) := by
  obtain ⟨s, hr, hp⟩ := System.Reachable.exists_of_run
    (M := (threadSafeQueue Nat).system waitAndPush)
    (p := fun s => s.trace = [.call 2, .point 2, .ret 2, .call 4, .point 4, .call 3, .point 3,
        .ret 4, .call 5, .point 5, .ret 5] ∧ s.calls 4 = .returned (.value 7) ∧
      s.calls 5 = .returned (.dropped (some 7)))
    (.init rfl)
    [.call 2, .enter 2, .notify 2 none, .ret 2, .call 4, .enter 4, .call 3, .enter 3, .ret 4,
      .call 5, .enter 5, .ret 5]
    (by decide)
  obtain ⟨htrace, hfront, hpop⟩ := hp
  have hprecedes : Precedes s.trace 4 5 :=
    ⟨[.call 2, .point 2, .ret 2, .call 4, .point 4, .call 3, .point 3, .ret 4],
      [.call 5, .point 5, .ret 5], htrace, by decide, by decide⟩
  have halone : ∀ c, (waitAndPush c).Removes → c ≠ 5 → .call c ∈ s.trace →
      Precedes s.trace c 4 ∨ Precedes s.trace 5 c := by
    intro c hremoves hc hcall
    rw [htrace] at hcall
    have hcalls : c = 2 ∨ c = 4 ∨ c = 3 ∨ c = 5 := by simpa using hcall
    rcases hcalls with rfl | rfl | rfl | rfl
    · exact hremoves.elim
    · exact hremoves.elim
    · exact hremoves.elim
    · exact absurd rfl hc
  have hdropped := pop_removes_front hr rfl rfl hfront hpop hprecedes halone
  exact ⟨s, hfront, hdropped ▸ hpop⟩

/-- No call waits for good while the queue has a value for it, whether or not calls give up at their
deadlines or wake up spuriously: a call is on its way that was notified, or is about to notify. -/
theorem queue_not_stranded (h : ((threadSafeQueue T).system op).Reachable s) :
    ¬ SharedObject.Stranded (fun q : ThreadSafeQueue T => q.q.length) s :=
  SharedObject.not_stranded ThreadSafeQueue.counts_length h

/-- A value was pushed in front of a call that sleeps, and the notification is still to come. -/
theorem queue_not_stranded_waitAndPush :
    ∃ s : QueueState (Fin 6) Nat, s.data.q = [7] ∧ s.calls 1 = .wait ∧
      ¬ SharedObject.Stranded (fun q : ThreadSafeQueue Nat => q.q.length) s := by
  obtain ⟨s, hr, hp⟩ := System.Reachable.exists_of_run
    (M := (threadSafeQueue Nat).system waitAndPush)
    (p := fun s => s.data.q = [7] ∧ s.calls 1 = .wait)
    (.init rfl) [.call 1, .enter 1, .call 2, .enter 2] (by decide)
  exact ⟨s, hp.1, hp.2, queue_not_stranded hr⟩

end VideoStream
