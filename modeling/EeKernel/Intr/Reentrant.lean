import EeKernel.Intr.AddDuring
import EeKernel.Intr.System

/-!
# Handlers that call the registry

A handler may call the whole interface while its interrupt is served.  The walk
keeps a counter and a pointer to the running descriptor, so what stands at or
before that descriptor must stay where it is; everything ahead of it, and every
other queue, may change.  Under that rule the walk never loses its place: it
ends, and the handlers it visited are, in this order, what the queue then starts
with.
-/

namespace EeKernel.Intr

open EeKernel.Lib

variable {ε : Type}

/-- The request leaves the queue `q` alone up to and including `i`. -/
def Request.AheadOf (q : Queue) (i : Hid) (A : Registry) : Request → Prop
  | .add q' next _ => q' = q → ∃ l₁ l₂, A q = l₁ ++ i :: l₂ ∧ Ahead next l₂
  | .remove q' j => q' = q → ∃ l₁ l₂, A q = l₁ ++ i :: l₂ ∧ j ∈ l₂
  | .set _ => True

/-- While `i` runs, memory goes from `m` to `m'` by valid calls that stay ahead of
`i`; besides, the registry is left alone. -/
inductive Edits (L : ListHelpers) (q : Queue) (i : Hid) : Mem → Mem → Prop
  | same {m m' : Mem} (h : SameRegistry m m') : Edits L q i m m'
  | call {m m₁ m' : Mem} {A : Registry} {call : Call} {req : Request} (h : SameRegistry m m₁)
      (hA : Represents m₁ A) (names : call.Names req) (valid : req.Valid A)
      (hok : ∀ q next unk, req = .add q next unk → unk ≠ 3) (ahead : req.AheadOf q i A)
      (rest : Edits L q i (exec L m₁ call).1 m') : Edits L q i m m'

/-- The handlers of queue `q` do nothing to the registry but such calls. -/
structure Callees.EditsAhead (C : Callees ε) (L : ListHelpers) (q : Queue) : Prop where
  user : ∀ {i r call s}, WellFormed s.mem r → i ∈ r (.queue q) →
    Edits L q i s.mem (C.func_800029C0 (Node.hnd i).word call s).1.mem
  direct : ∀ {i r handler inum s}, WellFormed s.mem r → i ∈ r (.queue q) →
    Edits L q i s.mem (C.direct (Node.hnd i).word handler inum s).mem

/-- A round on a descriptor that is linked on the queue, and called exactly if it is
enabled at that moment. -/
def Visit.OnQueue (q : Queue) (v : Visit ε) : Prop :=
  ∃ r i, WellFormed v.before.mem r ∧ i ∈ r (.queue q) ∧ v.hnd = (Node.hnd i).word ∧
    v.invoked.isSome = enabled v.before.mem i

/-- A walk, entered with `done` behind it, that kept its place: it visited `seen`, and
`left` is what it did not come to. -/
structure Kept (q : Queue) (done : List Hid) (w : Served ε) (r : Lists) (seen left : List Hid) :
    Prop where
  wellFormed : WellFormed w.machine.mem r
  queue : r (.queue q) = done ++ (seen ++ left)
  reads : w.visits.map Visit.hnd = seen.map fun i => (Node.hnd i).word
  linked : ∀ v ∈ w.visits, v.OnQueue q
  complete : w.early = false → left = []
  early : w.early = true → seen ≠ []
  count : w.early = false → w.count = BitVec.ofNat 32 (done.length + seen.length)
  missing : w.missing = false

/-! ## What the calls leave of the queue -/

section Edits

variable {L : ListHelpers} {q : Queue} {m m' : Mem} {r r' : Lists} {i : Hid} {l₁ l₂ : List Hid}

theorem CallDoes.ahead {call : Call} {req : Request} {ret : Word}
    (h : CallDoes call m r req m' ret r') (W : WellFormed m r)
    (ha : req.AheadOf q i r.queues) (hk : r (.queue q) = l₁ ++ i :: l₂) :
    ∃ l₂', r' (.queue q) = l₁ ++ i :: l₂' := by
  have hn := W.nodup (.queue q)
  rw [hk] at hn
  cases h with
  | refused => exact ⟨l₂, hk⟩
  | @added q' next _ _ _ _ j _ _ A _ =>
    by_cases hq : q' = q
    · subst hq
      obtain ⟨k₁, k₂, hk', hahead⟩ := ha rfl
      obtain ⟨rfl, rfl⟩ := split_unique (W.nodup _) hk hk'
      obtain ⟨l₂', hplace⟩ := place_ahead hn (fun j hj => W.pos (hk ▸ hj)) hahead j
      exact ⟨l₂', by rw [Lists.add_queue, hk, hplace]⟩
    · rw [Lists.add_queue_of_ne _ _ _ (Ne.symm hq)]
      exact ⟨l₂, hk⟩
  | @removed q' j _ _ _ =>
    by_cases hq : q' = q
    · subst hq
      obtain ⟨k₁, k₂, hk', hj⟩ := ha rfl
      obtain ⟨rfl, rfl⟩ := split_unique (W.nodup _) hk hk'
      -- `j` is ahead of `i`, so neither before it nor `i` itself
      obtain ⟨a, b, rfl⟩ := List.append_of_mem hj
      have happ : l₁ ++ i :: (a ++ j :: b) = (l₁ ++ i :: a) ++ j :: b := by simp
      rw [happ] at hn hk
      refine ⟨a ++ b, ?_⟩
      rw [Lists.remove_queue, hk, erase_middle hn]
      simp
    · rw [Lists.remove_queue_of_ne _ _ (Ne.symm hq)]
      exact ⟨l₂, hk⟩
  | set => exact ⟨l₂, hk⟩

/-- However many calls were made, the queue is as it was up to the running handler. -/
theorem Edits.spec (h : Edits L q i m m') (hL : L.Correct) (W : WellFormed m r)
    (hk : r (.queue q) = l₁ ++ i :: l₂) :
    ∃ r' l₂', WellFormed m' r' ∧ r' (.queue q) = l₁ ++ i :: l₂' := by
  induction h generalizing r l₂ with
  | same h => exact ⟨r, l₂, W.congr h, hk⟩
  | call h hA names valid hok ahead rest ih =>
    have W₁ := W.congr h
    obtain ⟨r₁, R, rfl⟩ := hA
    rw [W₁.unique R.toRings] at hk
    obtain ⟨r₂, hdoes⟩ := R.does hL names valid
    obtain ⟨l₂', hk'⟩ := hdoes.ahead R ahead hk
    exact ih (hdoes.wellFormed R hok) hk'

end Edits

/-! ## The walk -/

section Walk

variable {C : Callees ε} {L : ListHelpers} {q : Queue} {s s' : Machine ε} {r : Lists} {i : Hid}
  {done rest : List Hid}

theorem visit_edits (hC : C.EditsAhead L q) (W : WellFormed s.mem r) (hi : i ∈ r (.queue q))
    {inum : Word} {invoked : Option Invocation} {stop : Bool}
    (hv : visit C inum (Node.hnd i).word s = (s', invoked, stop)) :
    Edits L q i s.mem s'.mem ∧ invoked.isSome = enabled s.mem i := by
  obtain ⟨d, hd⟩ : ∃ d, readDescriptor s.mem (Node.hnd i).word = d := ⟨_, rfl⟩
  rw [enabled_eq hd]
  by_cases h2 : d.state = 2
  · rw [visit_user C inum hd h2] at hv
    cases hv
    exact ⟨hC.user (s := { s with gp := d.gp }) W hi, by simp [h2]⟩
  by_cases h0 : d.state = 0
  · rw [visit_direct C inum hd h2 h0] at hv
    cases hv
    exact ⟨hC.direct W hi, by simp [h0]⟩
  · rw [visit_skip C inum hd h2 h0] at hv
    cases hv
    refine ⟨.same (SameRegistry.refl _), ?_⟩
    rw [decide_eq_false h2, decide_eq_false h0]
    rfl

/-- One round before a walk that kept its place. -/
theorem Kept.push {w : Served ε} {seen left : List Hid} {invoked : Option Invocation} {r' : Lists}
    (K : Kept q (done ++ [i]) w r' seen left) (W : WellFormed s.mem r) (hi : i ∈ r (.queue q))
    (hinv : invoked.isSome = enabled s.mem i) :
    Kept q done (w.push { before := s, hnd := (Node.hnd i).word, invoked := invoked }) r'
      (i :: seen) left where
  wellFormed := K.wellFormed
  queue := K.queue.trans (by simp)
  reads := congrArg ((Node.hnd i).word :: ·) K.reads
  linked v hv := by
    rcases List.mem_cons.mp hv with rfl | hv
    · exact ⟨r, i, W, hi, rfl, hinv⟩
    · exact K.linked v hv
  complete := K.complete
  early _ := List.cons_ne_nil i seen
  count he := by
    have hc := K.count he
    rw [List.length_append, List.length_singleton, Nat.add_assoc, Nat.add_comm 1] at hc
    exact hc
  missing := K.missing

/-- The walk ends after at most as many rounds as there are descriptors, and kept its
place. -/
theorem walk_edits (hL : L.Correct) (hC : C.EditsAhead L q) (W : WellFormed s.mem r)
    (hk : r (.queue q) = done ++ rest) :
    ∃ w r' seen left,
      walk C (Node.head (.queue q)).word q.inum (129 - done.length) (BitVec.ofNat 32 done.length)
        (first (Node.head (.queue q)) (rest.map .hnd)).word s = some w ∧
      Kept q done w r' seen left ∧ (seen = [] ↔ rest = []) := by
  obtain ⟨fuel, hfuel⟩ : ∃ fuel, 129 - done.length = fuel := ⟨_, rfl⟩
  have hlen := W.length_le (.queue q)
  rw [hk, List.length_append] at hlen
  rw [hfuel]
  induction fuel generalizing s r done rest with
  | zero => omega
  | succ fuel ih =>
    cases rest with
    | nil =>
      have hend := (W.more_iff hk).not.mpr (by simp)
      refine ⟨_, r, [], [], walk_done hend, ⟨W, hk, rfl, ?_, fun _ => rfl, ?_, fun _ => rfl, rfl⟩,
        Iff.rfl⟩
      · intro v hv
        cases hv
      · intro he
        cases he
    | cons i rest =>
      have hi : i ∈ r (.queue q) := by
        rw [hk]
        simp
      have hlt := (W.more_iff hk).mpr (by simp)
      rw [List.map_cons, first_cons]
      rcases hv : visit C q.inum (Node.hnd i).word s with ⟨s', invoked, _ | _⟩
      · obtain ⟨hedits, hinv⟩ := visit_edits hC W hi hv
        obtain ⟨r', rest', W', hk'⟩ := hedits.spec hL W hk
        have hlen' := W'.length_le (.queue q)
        rw [hk', List.length_append, List.length_cons] at hlen'
        obtain ⟨w, r'', seen, left, hw, K, -⟩ := ih W' (hk'.trans (List.append_cons ..))
          (by rw [List.length_append, List.length_singleton]; omega)
          (by rw [List.length_append, List.length_singleton]; omega)
        rw [List.length_append, List.length_singleton, ← ofNat_succ, ← W'.next_word hk'] at hw
        refine ⟨_, r'', i :: seen, left, ?_, K.push W hi hinv, by simp⟩
        rw [walk_next hlt hv, hw]
        rfl
      · obtain ⟨hedits, hinv⟩ := visit_edits hC W hi hv
        obtain ⟨r', rest', W', hk'⟩ := hedits.spec hL W hk
        refine ⟨_, r', [i], rest', walk_return hlt hv,
          ⟨W', hk', rfl, ?_, by simp, by simp, by simp, rfl⟩, by simp⟩
        intro v hv
        rw [List.mem_singleton.mp hv]
        exact ⟨r, i, W, hi, rfl, hinv⟩

end Walk

/-! ## The interrupt -/

/-- What an interrupt comes to whose handlers call the registry. -/
structure ServedWhileEdited (C : Callees ε) (q : Queue) (l : List Hid) (s : Machine ε)
    (w : Served ε) : Prop where
  missing : w.missing = true ↔ l = []
  none : l = [] → w.visits = [] ∧
    w.machine = C.func_80000DC0 1 (C.kprintf q.message q.inum (entered q s))
  /-- the queue ends up as the handlers visited, each of them once, and what an early end
  left over -/
  kept : l ≠ [] → ∃ r seen left, Kept q [] w r seen left ∧ seen.Nodup

theorem serves_while_edited {L : ListHelpers} (hL : L.Correct) {C : Callees ε} {q : Queue}
    (hC : C.EditsAhead L q) {s : Machine ε} {r : Lists} (W : WellFormed s.mem r)
    (hv : VsyncOutside q s.mem) :
    ∃ w, (∀ fuel, 128 < fuel → interrupt C fuel q s = some w) ∧
      ServedWhileEdited C q (r (.queue q)) s w := by
  have We := W.congr (entered_same hv)
  obtain ⟨w, r', seen, left, hw, K, hseen⟩ := walk_edits hL hC We (List.nil_append _).symm
  have hw129 : walk C (Node.head (.queue q)).word q.inum 129 (BitVec.ofNat 32 0)
      (first (Node.head (.queue q)) ((r (.queue q)).map .hnd)).word (entered q s) = some w := hw
  refine ⟨finish C q.message q.inum w, fun fuel hfuel => ?_, ?_⟩
  · rw [interrupt_walk W.toCounted hv, walk_mono hw129 (Nat.succ_le_of_lt hfuel)]
    rfl
  -- the counter stays at 0 exactly if no handler was found
  have hzero : w.early = false ∧ w.count = 0 ↔ r (.queue q) = [] := by
    rw [← hseen]
    constructor
    · rintro ⟨he, hc⟩
      have hlen := K.wellFormed.length_le (.queue q)
      rw [K.queue, List.length_append, List.length_append] at hlen
      rw [K.count he, List.length_nil, Nat.zero_add] at hc
      exact List.length_eq_zero_iff.mp (ofNat_inj (by omega) (by omega) hc)
    · intro hnil
      have he : w.early = false := by
        cases he : w.early with
        | false => rfl
        | true => exact absurd hnil (K.early he)
      refine ⟨he, ?_⟩
      rw [K.count he, hnil]
      rfl
  unfold finish
  split
  · rename_i hend
    have hnil := hzero.mp hend
    refine ⟨iff_of_true rfl hnil, fun _ => ?_, fun h => absurd hnil h⟩
    have hsplit : r (.queue q) = [] ++ [] := hnil
    have hdone := (We.more_iff hsplit).not.mpr (by simp)
    have hw₀ := hw129.symm.trans (walk_done hdone)
    cases hw₀
    exact ⟨rfl, rfl⟩
  · rename_i hend
    have hne := hzero.not.mp hend
    refine ⟨iff_of_false (by simp [K.missing]) hne, fun h => absurd h hne, fun _ => ?_⟩
    have hn := K.wellFormed.nodup (.queue q)
    rw [K.queue, List.nil_append] at hn
    exact ⟨r', seen, left, K, (List.nodup_append.mp hn).1⟩

/-! ## Runs -/

/-- A step: a valid call, an interrupt whose handlers call the registry, a soft reset. -/
inductive ReentrantStep (L : ListHelpers) : Mem → Label → Mem → Prop
  | reply {m : Mem} {A : Registry} {call : Call} {req : Request} (hA : Represents m A)
      (names : call.Names req) (valid : req.Valid A)
      (hok : ∀ q next unk, req = .add q next unk → unk ≠ 3) :
      ReentrantStep L m (.reply call (exec L m call).2) (exec L m call).1
  | served {ε : Type} {m : Mem} {C : Callees ε} {s : Machine ε} {w : Served ε} (q : Queue)
      (hC : C.EditsAhead L q)
      (kprintf : ∀ text inum s, SameRegistry s.mem (C.kprintf text inum s).mem)
      (func_80000DC0 : ∀ x s, SameRegistry s.mem (C.func_80000DC0 x s).mem)
      (hs : SameRegistry m s.mem) (hv : VsyncOutside q s.mem) (fuel : Nat)
      (h : interrupt C fuel q s = some w) :
      ReentrantStep L m (.served q (w.invocations.map Invocation.seen) w.missing) w.machine.mem
  | reset {k : Kernel} {A : Registry} (hA : Represents k.mem A) (hidle : SbusIdle A) :
      ReentrantStep L k.mem .reset (func_800021F0 L k).1.mem

def reentrant (L : ListHelpers) : Lts Mem Label where
  init m := ∃ k, m = (func_80002090 L k).1.mem
  step := ReentrantStep L

theorem ReentrantStep.wellFormed {L : ListHelpers} {m m' : Mem} {l : Label}
    (step : ReentrantStep L m l m') (hL : L.Correct) (hm : ∃ r, WellFormed m r) :
    ∃ r, WellFormed m' r := by
  cases step with
  | reply hA names valid hok =>
    obtain ⟨r, W, rfl⟩ := hA
    obtain ⟨r', hdoes⟩ := W.does hL names valid
    exact ⟨r', hdoes.wellFormed W hok⟩
  | @served ε m C s w q hC kprintf func_80000DC0 hs hv fuel h =>
    obtain ⟨r, W⟩ := hm
    obtain ⟨w', hw', S⟩ := serves_while_edited hL hC (W.congr hs) hv
    have hmore := interrupt_mono h (Nat.le_add_right fuel 129)
    rw [hw' _ (by omega)] at hmore
    cases hmore
    by_cases hq : r (.queue q) = []
    · obtain ⟨-, hmachine⟩ := S.none hq
      rw [hmachine]
      have hsame := (entered_same hv).trans (kprintf q.message q.inum (entered q s))
      exact ⟨r, W.congr (hs.trans (hsame.trans (func_80000DC0 _ _)))⟩
    · obtain ⟨r', _, _, K, -⟩ := S.kept hq
      exact ⟨r', K.wellFormed⟩
  | reset hA hidle => exact ⟨initLists, func_800021F0_rebuilds hL hA hidle⟩

/-- **The registry may be called from its handlers.**  In every state that valid calls,
soft resets and interrupts reach whose handlers make any valid calls ahead of themselves
and on other queues, the next such interrupt ends in at most 128 rounds, each on a
descriptor that is then on the queue, none twice, and has visited all that are on the
queue when it ends, unless a negative result ended it early. -/
theorem reentrant_runs {L : ListHelpers} (hL : L.Correct) {ls : List Label} {m : Mem}
    (h : (reentrant L).Reaches ls m) :
    ∃ r, WellFormed m r ∧ ∀ {ε : Type} (C : Callees ε) (q : Queue) (s : Machine ε),
      C.EditsAhead L q → SameRegistry m s.mem → VsyncOutside q s.mem →
      ∃ w, (∀ fuel, 128 < fuel → interrupt C fuel q s = some w) ∧
        ServedWhileEdited C q (r (.queue q)) s w := by
  have hm : ∃ r, WellFormed m r := by
    refine h.ind (P := fun _ m => ∃ r, WellFormed m r) ?_ ?_
    · rintro _ ⟨k, rfl⟩
      exact ⟨initLists, func_80002090_wellFormed hL k⟩
    · intro _ _ _ _ hm step
      exact ReentrantStep.wellFormed step hL hm
  obtain ⟨r, W⟩ := hm
  exact ⟨r, W, fun C q s hC hs hv => serves_while_edited hL hC (W.congr hs) hv⟩

/-! ## A handler that registers another behind it -/

/-- Every handler adds one at the end of INTC queue 0. -/
def appender (L : ListHelpers) : Callees Unit where
  func_800029C0 _ _ s :=
    ({ s with mem := (func_80001A70 L s.mem 0x10 (idx (0 : Fin 15)) 0x300 (-1) 9).1 }, 0)
  direct _ _ _ s :=
    { s with mem := (func_80001A70 L s.mem 0x10 (idx (0 : Fin 15)) 0x300 (-1) 9).1 }
  kprintf _ _ s := s
  func_80000DC0 _ s := s

theorem appender_editsAhead (L : ListHelpers) : (appender L).EditsAhead L (.intc 0) := by
  have hadd : ∀ {i r m}, WellFormed m r → i ∈ r (.queue (.intc 0)) →
      Edits L (.intc 0) i m (func_80001A70 L m 0x10 (idx (0 : Fin 15)) 0x300 (-1) 9).1 := by
    intro i r m W hi
    obtain ⟨l₁, l₂, hk⟩ := List.append_of_mem hi
    have hn := Call.Names.func_800018F0 0x10 (0 : Fin 15) 0x300 (-1) 9 2
    refine .call (SameRegistry.refl m) ⟨r, W, rfl⟩ hn (.inl rfl) ?_ ?_ (.same (.refl _))
    · rintro q next unk ⟨⟩
      decide
    · exact fun _ => ⟨l₁, l₂, hk, .inl rfl⟩
  exact ⟨fun W hi => hadd W hi, fun W hi => hadd W hi⟩

/-- After a handler was added to INTC queue 0, an interrupt that keeps adding more. -/
theorem reentrant_runs_appender :
    let m := (func_80002090 standard zeroKernel).1.mem
    let m₁ := (exec standard m (.func_800018F0 0x10 (idx (0 : Fin 15)) 0x100 (-1) 7 2)).1
    ∃ r, WellFormed m₁ r ∧ ∃ w,
      (∀ fuel, 128 < fuel →
        interrupt (appender standard) fuel (.intc 0) (machineOf m₁ ()) = some w) ∧
      ServedWhileEdited (appender standard) (.intc 0) (r (.queue (.intc 0)))
        (machineOf m₁ ()) w := by
  intro m m₁
  have hm : Represents m fun _ => [] :=
    ⟨initLists, func_80002090_wellFormed standard_correct zeroKernel, rfl⟩
  have hn := Call.Names.func_800018F0 0x10 (0 : Fin 15) 0x100 (-1) 7 2
  have hok : ∀ q next unk, Request.add (.intc 0) (-1) 2 = .add q next unk → unk ≠ 3 := by
    rintro q next unk ⟨⟩
    decide
  have hreach : (reentrant standard).Reaches _ m₁ :=
    ⟨m, ⟨zeroKernel, rfl⟩, .snoc (.refl m) (ReentrantStep.reply hm hn (.inl rfl) hok)⟩
  clear_value m₁
  obtain ⟨r, W, h⟩ := reentrant_runs standard_correct hreach
  exact ⟨r, W, h (appender standard) (.intc 0) (machineOf m₁ ()) (appender_editsAhead standard)
    (SameRegistry.refl m₁) (vsyncOutside_of_ne (by decide) _)⟩

end EeKernel.Intr
