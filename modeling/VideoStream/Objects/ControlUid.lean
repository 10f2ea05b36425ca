import Mathlib.Data.List.Chain
import VideoStream.Library.Decimal
import VideoStream.Objects.MetaObject
import VideoStream.Utils.Conversions

/-!
# Control uids

A `vp_control_meta` that is made without a uid gets one from the clock, in milliseconds. The uids of
a run are unique exactly when each of them is made in a later millisecond than the one before it
(`uniqueUids_iff`).
-/

namespace VideoStream

open Library

/-- A `vp_control_meta`, with its uid. -/
structure UidControlMeta extends VpControlMeta where
  controlUid : List Char
  deriving DecidableEq

/-- A call of the constructor, with its arguments, and what the clock reads if it is asked, in
nanoseconds. -/
structure ControlCall where
  controlType : ControlType
  channelIndex : Int
  controlUid : List Char
  now : Int
  deriving DecidableEq

def generateUid (now : Int) : List Char := "control_meta_".toList ++ decimal (milliseconds now)

/-- The constructor of `vp_control_meta`. -/
def ControlCall.construct (c : ControlCall) : UidControlMeta where
  toVpControlMeta := vpControlMeta c.controlType c.channelIndex
  controlUid := if c.controlUid.isEmpty then generateUid c.now else c.controlUid

/-- `vp_src_node::speak` -/
def speak (channelIndex now : Int) : ControlCall where
  controlType := .speak
  channelIndex := channelIndex
  controlUid := []
  now := now

/-- The calls whose uid is generated. -/
def generated (run : List ControlCall) : List ControlCall :=
  run.filter fun c => c.controlUid.isEmpty

/-- The clock does not go backwards between two generated uids. -/
def ClockForward (run : List ControlCall) : Prop :=
  (generated run).Pairwise fun c c' => c.now ≤ c'.now

/-- Any two of the generated uids are different. -/
def UniqueUids (run : List ControlCall) : Prop :=
  (generated run).Pairwise fun c c' => c.construct.controlUid ≠ c'.construct.controlUid

/-- Each generated uid is made in a later millisecond than the one before it. -/
def LaterMilliseconds (run : List ControlCall) : Prop :=
  (generated run).IsChain fun c c' => milliseconds c.now < milliseconds c'.now

theorem construct_controlUid {run : List ControlCall} {c : ControlCall} (h : c ∈ generated run) :
    c.construct.controlUid = generateUid c.now := by
  unfold ControlCall.construct
  rw [if_pos (List.of_mem_filter h)]

theorem generateUid_eq_iff {m n : Int} :
    generateUid m = generateUid n ↔ milliseconds m = milliseconds n := by
  constructor
  · intro h
    exact decimal_injective (List.append_cancel_left h)
  · intro h
    unfold generateUid
    rw [h]

theorem uniqueUids_iff {run : List ControlCall} (hclock : ClockForward run) :
    UniqueUids run ↔ LaterMilliseconds run := by
  have huid {c c' : ControlCall} (hc : c ∈ generated run) (hc' : c' ∈ generated run) :
      c.construct.controlUid ≠ c'.construct.controlUid ↔
        milliseconds c.now ≠ milliseconds c'.now := by
    rw [construct_controlUid hc, construct_controlUid hc']
    exact not_congr generateUid_eq_iff
  constructor
  · intro hunique
    apply List.Pairwise.isChain
    refine (hunique.and hclock).imp_of_mem fun hc hc' hpair => ?_
    exact lt_of_le_of_ne (milliseconds_le hpair.2) ((huid hc hc').mp hpair.1)
  · intro hlater
    have hpairs : (generated run).Pairwise fun c c' =>
        milliseconds c.now < milliseconds c'.now := by
      have htrans : IsTrans ControlCall fun c c' => milliseconds c.now < milliseconds c'.now :=
        ⟨fun _ _ _ h h' => lt_trans h h'⟩
      exact List.isChain_iff_pairwise.mp hlater
    exact hpairs.imp_of_mem fun hc hc' hlt => (huid hc hc').mpr hlt.ne

/-- Three calls; the second one brings its own uid. -/
theorem uniqueUids_iff_speaks :
    UniqueUids [speak 0 1000000, { speak 0 1500000 with controlUid := ['a'] }, speak 1 2000000] :=
  (uniqueUids_iff (by unfold ClockForward; decide)).mpr (by unfold LaterMilliseconds; decide)

/-- Two calls within a millisecond. -/
theorem uids_repeat :
    ClockForward [speak 0 1000000, speak 0 1999999] ∧
      ¬ UniqueUids [speak 0 1000000, speak 0 1999999] := by
  constructor
  · unfold ClockForward
    decide
  · unfold UniqueUids
    decide

end VideoStream
