import Mathlib.Data.List.Perm.Basic
import EeKernel.Alarm.Model
import EeKernel.Lib.BitSet
import EeKernel.Lib.Fold

/-!
# Consistent alarm tables

`Consistent` says that the count, the bits and the queue of a state agree.
Proofs use `Holds s l`, which names the ids on the queue: it is the head of
this list that both functions take off.
-/

namespace EeKernel.Alarm

open EeKernel.Lib

/-- The id of an alarm, on the queue and as an `int`. -/
def byte (i : Fin 64) : BitVec 8 := BitVec.ofNat 8 i

def idWord (i : Fin 64) : Word := BitVec.ofNat 32 i

theorem ofChar_byte (i : Fin 64) : ofChar (byte i) = idWord i := by
  revert i
  decide

theorem toNat_idWord (i : Fin 64) : (idWord i).toNat = i := by
  revert i
  decide

theorem byte_inj {i j : Fin 64} : byte i = byte j ↔ i = j := by
  refine ⟨fun h => ?_, fun h => h ▸ rfl⟩
  have h' := congrArg (fun c => (ofChar c).toNat) h
  simp only [ofChar_byte, toNat_idWord] at h'
  exact Fin.ext h'

/-- `D_8001C738[0..D_8001C230)` -/
def queued (s : State) : List (BitVec 8) := (rounds s.D_8001C230).map s.D_8001C738

def active (s : State) : List (Fin 64) := setBits s.D_8001C228

/-- Count, bits and queue agree: every active id is queued exactly once. -/
structure Consistent (s : State) : Prop where
  count : s.D_8001C230.toInt = (active s).length
  queue : (queued s).Perm ((active s).map byte)

/-- The queue holds the ids `l`, and these are the active ones. -/
structure Holds (s : State) (l : List (Fin 64)) : Prop where
  count : s.D_8001C230 = BitVec.ofNat 32 l.length
  queue : queued s = l.map byte
  active : l.Perm (active s)

/-! ## The count -/

theorem toInt_ofNat {n : Nat} (h : n ≤ 64) : (BitVec.ofNat 32 n).toInt = n := by
  rw [BitVec.toInt_eq_toNat_cond, BitVec.toNat_ofNat, Nat.mod_eq_of_lt (by omega)]
  exact if_pos (by omega)

theorem rounds_ofNat {n : Nat} (h : n ≤ 64) : rounds (BitVec.ofNat 32 n) = List.range n := by
  rw [rounds, toInt_ofNat h, Int.toNat_natCast]

theorem active_length_le (s : State) : (active s).length ≤ 64 := length_setBits_le _

namespace Holds

variable {s s' : State} {i j : Fin 64} {l : List (Fin 64)}

theorem nodup (H : Holds s l) : l.Nodup := H.active.nodup_iff.mpr (setBits_nodup _)

theorem length_le (H : Holds s l) : l.length ≤ 64 := H.active.length_eq ▸ active_length_le s

theorem toInt_count (H : Holds s l) : s.D_8001C230.toInt = l.length := by
  rw [H.count, toInt_ofNat H.length_le]

theorem entries (H : Holds s l) : (List.range l.length).map s.D_8001C738 = l.map byte := by
  have h := H.queue
  rwa [queued, H.count, rounds_ofNat H.length_le] at h

theorem entry (H : Holds s l) {n : Nat} (h : l[n]? = some i) : s.D_8001C738 n = byte i := by
  have hn := (List.getElem?_eq_some_iff.mp h).1
  have he := congrArg (·[n]?) H.entries
  simpa [List.getElem?_range hn, h] using he

theorem head (H : Holds s (i :: l)) : s.D_8001C738 0 = byte i := H.entry rfl

theorem ofChar_head (H : Holds s (i :: l)) : ofChar (s.D_8001C738 0) = idWord i := by
  rw [H.head, ofChar_byte]

theorem ofChar_next (H : Holds s (i :: j :: l)) : ofChar (s.D_8001C738 1) = idWord j := by
  have hj : s.D_8001C738 1 = byte j := H.entry rfl
  rw [hj, ofChar_byte]

theorem count_ne_one (H : Holds s (i :: j :: l)) : s.D_8001C230 ≠ 1 := by
  intro hone
  have hlen := H.toInt_count
  rw [hone, List.length_cons, List.length_cons] at hlen
  have : (1 : Word).toInt = 1 := by decide
  omega

end Holds

theorem consistent_iff {s : State} : Consistent s ↔ ∃ l, Holds s l := by
  constructor
  · intro h
    -- an id is read back off the queue
    let back : BitVec 8 → Fin 64 := fun c => Fin.ofNat 64 c.toNat
    have hback : ∀ i, back (byte i) = i := by decide
    have hperm : ((queued s).map back).Perm (active s) := by
      have hmap := h.queue.map back
      have hid : (back ∘ byte) = id := funext hback
      rwa [List.map_map, hid, List.map_id] at hmap
    have hlen : (queued s).length = (active s).length := by
      simpa using h.queue.length_eq
    refine ⟨(queued s).map back, ?_, ?_, hperm⟩
    · apply BitVec.eq_of_toInt_eq
      rw [List.length_map, hlen, h.count, toInt_ofNat (active_length_le s)]
    · rw [List.map_map]
      refine ((List.map_congr_left fun c hc => ?_).trans (List.map_id _)).symm
      obtain ⟨i, -, rfl⟩ := List.mem_map.mp (h.queue.mem_iff.mp hc)
      exact congrArg byte (hback i)
  · rintro ⟨l, H⟩
    refine ⟨?_, ?_⟩
    · rw [H.toInt_count, H.active.length_eq]
    · rw [H.queue]
      exact H.active.map byte

/-! ## Taking alarms off and putting them on -/

section Update

variable {s s' : State} {i j : Fin 64} {l : List (Fin 64)}

theorem shift_eq (count : Word) (queue : Nat → BitVec 8) (n : Nat) :
    shift count queue n = if n < count.toInt.toNat then queue (n + 1) else queue n :=
  foldl_update_range (v := fun queue i => queue (i + 1))
    (fun _ _ i h => h (i + 1) (Nat.le_succ i)) queue _ n

theorem shift_ofNat {k n : Nat} (hk : k ≤ 64) (hn : n < k) (queue : Nat → BitVec 8) :
    shift (BitVec.ofNat 32 k) queue n = queue (n + 1) := by
  rw [shift_eq, toInt_ofNat hk, Int.toNat_natCast, if_pos hn]

@[simp] theorem oneShl_idWord (i : Fin 64) : oneShl (idWord i) = BitVec.twoPow 64 i := by
  rw [oneShl, toNat_idWord, Nat.mod_eq_of_lt i.isLt]

theorem active_clear (h : s'.D_8001C228 = s.D_8001C228 &&& ~~~oneShl (idWord i)) :
    active s' = (active s).erase i := by
  rw [active, h, oneShl_idWord, ← clearBit, setBits_clearBit, active]

/-- From `s` to `s'` the head of the queue is shifted out. -/
structure Shifted (s s' : State) : Prop where
  count : s'.D_8001C230 = s.D_8001C230 - 1
  queue : s'.D_8001C738 = shift s'.D_8001C230 s.D_8001C738

theorem Shifted.queued (h : Shifted s s') (H : Holds s (i :: l)) :
    s'.D_8001C230 = BitVec.ofNat 32 l.length ∧ queued s' = l.map byte := by
  have hlen := H.length_le
  rw [List.length_cons] at hlen
  have hcount : s'.D_8001C230 = BitVec.ofNat 32 l.length := by
    rw [h.count, H.count, List.length_cons, ofNat_pred (Nat.succ_pos _)]
    rfl
  refine ⟨hcount, ?_⟩
  have he := H.entries
  rw [List.length_cons, List.range_succ_eq_map, List.map_cons, List.map_cons, List.map_map] at he
  rw [Alarm.queued, h.queue, hcount, rounds_ofNat (by omega), ← (List.cons.inj he).2]
  apply List.map_congr_left
  intro n hn
  exact shift_ofNat (by omega) (List.mem_range.mp hn) _

theorem Shifted.holds (h : Shifted s s') (H : Holds s (i :: l))
    (hbits : s'.D_8001C228 = s.D_8001C228 &&& ~~~oneShl (idWord i)) : Holds s' l := by
  obtain ⟨hcount, hqueue⟩ := h.queued H
  refine ⟨hcount, hqueue, ?_⟩
  rw [active_clear hbits]
  exact (List.cons_perm_iff_perm_erase.mp H.active).2

end Update

end EeKernel.Alarm
