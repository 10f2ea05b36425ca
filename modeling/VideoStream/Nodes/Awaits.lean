import VideoStream.Nodes.VpNode

/-!
# What the handle thread will still look at

A meta reaches the handlers of a plain node only through `meta_flow`. So a property of all metas
that the callers of `meta_flow` pass is a property of every meta that is handled.
-/

namespace VideoStream

open Library Meta

/-- A call of `meta_flow` carries a meta with `P`; nothing is asked of the other steps. -/
def VpAct.Carries {M : Type} (P : M → Prop) : VpAct M → Prop
  | .node (.metaFlow (some m)) => P m
  | _ => True

instance {M : Type} {P : M → Prop} [DecidablePred P] : ∀ a : VpAct M, Decidable (a.Carries P)
  | .node (.metaFlow (some m)) => inferInstanceAs (Decidable (P m))
  | .node (.metaFlow none) | .node .dispatch | .node (.pendingMeta _) | .node (.call _)
  | .node .deinitialized | .node .deinit | .handle => isTrue trivial

/-- The meta the handle thread has popped and not yet handled. -/
def HandlePc.inHand {M : Type} : HandlePc M → Option M
  | .handlingHook m | .callHandlers m => some m
  | _ => none

theorem mem_advance {M : Type} {calls : List (Call M)} {i : Nat} {c d : Call M}
    (h : d ∈ advance calls i c) : d ∈ calls ∨ c.next = some d := by
  unfold advance at h
  split at h
  · next c' hc =>
      rcases List.mem_or_eq_of_mem_set h with h | rfl
      · exact .inl h
      · exact .inr hc
  · exact .inl (List.mem_of_mem_eraseIdx h)

namespace VpNode

open Node

variable {M S : Type} {s s' : VpNode M S}

/-- The metas that the handle thread will still look at. -/
def Awaits (s : VpNode M S) (m : M) : Prop :=
  some m ∈ s.inQueue ∨ (∃ pc, Call.metaFlow m pc ∈ s.calls) ∨ s.handle.pc.inHand = some m

/-- A call in progress brings no meta that was not awaited before. -/
theorem callStep_awaits {i : Nat} (h : s.callStep i = some s') {m : M} (hm : s'.Awaits m) :
    s.Awaits m := by
  obtain ⟨c, hc, rfl⟩ := callStep_cases h
  have hcalls : ∀ pc, Call.metaFlow m pc ∈ advance s.calls i c → s.Awaits m := by
    intro pc hpc
    rcases mem_advance hpc with hpc | hnext
    · exact .inr (.inl ⟨pc, hpc⟩)
    · rcases c with ⟨m', pc'⟩ | ⟨m', pc'⟩ <;> cases pc' <;> cases hnext <;>
        exact .inr (.inl ⟨_, List.mem_of_getElem? hc⟩)
  rcases c with ⟨m', pc⟩ | ⟨m', pc⟩ <;> cases pc
  case metaFlow.push =>
    rcases hm with hm | ⟨pc, hpc⟩ | hm
    · rcases List.mem_append.mp hm with hm | hm
      · exact .inl hm
      · obtain rfl : m = m' := by simpa using hm
        exact .inr (.inl ⟨_, List.mem_of_getElem? hc⟩)
    · exact hcalls pc hpc
    · exact .inr (.inr hm)
  all_goals
    rcases hm with hm | ⟨pc, hpc⟩ | hm
    · exact .inl hm
    · exact hcalls pc hpc
    · exact .inr (.inr hm)

/-- A shared thread brings the meta of a beginning `meta_flow`, and no other. -/
theorem nodeStep_awaits {a : NodeAct M} (h : s.step a = some s') {m : M} (hm : s'.Awaits m) :
    s.Awaits m ∨ a = .metaFlow (some m) := by
  cases a with
  | dispatch => left; cases dispatchStep_cases h <;> exact hm
  | metaFlow m' =>
      cases m' with
      | none => cases h; exact .inl hm
      | some m' =>
          cases h
          rcases hm with hm | ⟨pc, hpc⟩ | hm
          · exact .inl (.inl hm)
          · rcases List.mem_append.mp hpc with hpc | hpc
            · exact .inl (.inr (.inl ⟨pc, hpc⟩))
            · obtain ⟨rfl, -⟩ : m = m' ∧ pc = .push := by simpa using hpc
              exact .inr rfl
          · exact .inl (.inr (.inr hm))
  | pendingMeta m' =>
      cases h
      rcases hm with hm | ⟨pc, hpc⟩ | hm
      · exact .inl (.inl hm)
      · exact .inl (.inr (.inl ⟨pc, by simpa using hpc⟩))
      · exact .inl (.inr (.inr hm))
  | call i => exact .inl (callStep_awaits h hm)
  | deinitialized =>
      obtain ⟨-, rfl⟩ := deinitialized_cases h
      exact .inl hm
  | deinit =>
      left
      cases deinitStep_cases h with
      | push hp =>
          rcases hm with hm | hm
          · exact .inl (by simpa using hm)
          · exact .inr hm
      | alive hp | signal hp | joinHandle hp _ | joinDispatch hp _ => exact hm

variable [Meta M] {cfg : NodeConfig M}

theorem handleStep_awaits (h : s.handleStep cfg = some s') {m : M} (hm : s'.Awaits m) :
    s.Awaits m := by
  cases handleStep_cases h with
  | popNull rest hp hq =>
      rcases hm with hm | hm | hm
      · exact .inl (hq ▸ List.mem_cons_of_mem _ hm)
      · exact .inr (.inl hm)
      · cases hm
  | popMeta m' rest hp hq =>
      rcases hm with hm | hm | hm
      · exact .inl (hq ▸ List.mem_cons_of_mem _ hm)
      · exact .inr (.inl hm)
      · cases hm
        exact .inl (hq ▸ List.mem_cons_self)
  | handlingHook m' hp =>
      rcases hm with hm | hm | hm
      · exact .inl hm
      · exact .inr (.inl hm)
      · exact .inr (.inr (hp ▸ hm))
  | _ =>
      rcases hm with hm | hm | hm
      · exact .inl hm
      · exact .inr (.inl hm)
      · cases hm

theorem reachable_awaits {P : M → Prop}
    (h : (vpNode cfg).ReachableBy (fun _ a => a.Carries P) s) : ∀ m, s.Awaits m → P m := by
  apply h.invariant (I := fun s => ∀ m, s.Awaits m → P m)
  · rintro _ ⟨subscribers, rfl⟩ m (hm | ⟨pc, hpc⟩ | hm)
    · cases hm
    · cases hpc
    · cases hm
  · intro s s' a _ hs ha hstep m hm
    cases a with
    | handle => exact hs m (handleStep_awaits hstep hm)
    | node a =>
        rcases nodeStep_awaits hstep hm with hm | rfl
        · exact hs m hm
        · exact ha

/-- The handle thread does not throw while the callers of `meta_flow` pass tagged metas. -/
theorem reachable_noThrow (h : (vpNode cfg).ReachableBy (fun _ a => a.Carries Tagged) s) :
    s.handle.pc ≠ .threw := by
  apply h.invariant (I := fun s => s.handle.pc ≠ .threw)
  · rintro _ ⟨subscribers, rfl⟩
    simp [start, Node.start]
  · intro s s' a hr hs _ hstep
    cases a with
    | node a => rwa [Node.step_handle hstep]
    | handle =>
        cases handleStep_cases hstep with
        | throws m msg hp hc =>
            have hm : Awaits s m := .inr (.inr (by simp [hp, HandlePc.inHand]))
            exact absurd hc (callHandlers_ne_error (reachable_awaits hr m hm))
        | _ => simp

end VpNode

end VideoStream
