import EeKernel.Intr.System

/-!
# What every run of the registry keeps

Three consequences of what a step of `kernel` can do.  Handlers that stay
registered keep their order on each queue, whatever is added and removed around
them.  The counter `func_80002080` returns is the number of ids handed out and
not taken back, and an Add is refused for want of a descriptor exactly when that
number is 128.  No call, registration or reset writes a word outside the tables.
-/

namespace EeKernel.Intr

open EeKernel.Lib

namespace Cell

/-- The words the calls of the registry and of the SBUS table may write. -/
def Owned : Cell → Prop
  | .sbus _ => True
  | c => c.Writable

theorem owned_of_writable (c : Cell) (hc : c.Writable) : c.Owned := by
  cases c with
  | sbus => exact trivial
  | _ => exact hc

end Cell

variable {L : ListHelpers} {ls ls' : List Label} {s s' : Mem × Registry}

theorem kernel_represents (hL : L.Correct) (h : (kernel L).Reaches ls s) :
    ∃ r, WellFormed s.1 r ∧ s.2 = r.queues := by
  obtain ⟨B, -, r, D⟩ := (kernel_simulates hL).reaches h
  exact ⟨r, D.wellFormed, D.ledger⟩

/-! ## Order -/

/-- A Remove of `i` is among the calls. -/
def Removes (ls : List Label) (i : Hid) : Prop :=
  ∃ cause ret, .reply (.func_80001AB0 cause (idx i)) ret ∈ ls ∨
    .reply (.func_80001CF8 cause (idx i)) ret ∈ ls

theorem Removes.mono {i : Hid} (h : Removes ls i) (hsub : ls ⊆ ls') : Removes ls' i := by
  obtain ⟨cause, ret, h | h⟩ := h
  · exact ⟨cause, ret, .inl (hsub h)⟩
  · exact ⟨cause, ret, .inr (hsub h)⟩

theorem removes_of_names {call : Call} {q : Queue} {i : Hid} {ret : Word}
    (h : call.Names (.remove q i)) : Removes [.reply call ret] i := by
  cases h with
  | func_80001AB0 c => exact ⟨idx c, ret, .inl (List.mem_singleton_self _)⟩
  | func_80001CF8 c => exact ⟨idx c, ret, .inr (List.mem_singleton_self _)⟩

section Order

variable {A : Registry} {req : Request} {ret next : Word} {i : Hid} {S : Hid → Bool}

theorem filter_insertBefore (hi : S i = false) (l : List Hid) :
    (insertBefore next i l).filter S = l.filter S := by
  induction l with
  | nil => simp [insertBefore, hi]
  | cons j l ih =>
    unfold insertBefore
    split
    · rw [List.filter_cons_of_neg (by simp [hi])]
    · rw [List.filter_cons, List.filter_cons, ih]

theorem filter_place (hi : S i = false) (l : List Hid) :
    (place next i l).filter S = l.filter S := by
  unfold place
  split
  · simp [List.filter_append, hi]
  · split
    · rw [List.filter_cons_of_neg (by simp [hi])]
    · exact filter_insertBefore hi l

theorem filter_erase_of_not (hi : S i = false) (l : List Hid) :
    (l.erase i).filter S = l.filter S := by
  rw [← List.erase_filter, List.erase_of_not_mem]
  intro hmem
  rw [(List.mem_filter.mp hmem).2] at hi
  cases hi

/-- A call moves no id but the one it adds or removes. -/
theorem after_filter (h : Step A req ret (A.after req ret))
    (hlive : ∀ i, S i = true → ∃ q, i ∈ A q)
    (hkeep : ∀ q i, req = .remove q i → S i = false) (q : Queue) :
    (A.after req ret q).filter S = (A q).filter S := by
  have hupdate : ∀ (q' : Queue) (l : List Hid), l.filter S = (A q').filter S →
      (Function.update A q' l q).filter S = (A q).filter S := by
    intro q' l hl
    by_cases hq : q = q'
    · subst hq
      rw [Function.update_self, hl]
    · rw [Function.update_of_ne hq]
  generalize hA : A.after req ret = A' at h ⊢
  cases h with
  | @added q' next unk i hi hfree hok =>
    refine hupdate q' _ (filter_place ?_ _)
    cases hS : S i with
    | false => rfl
    | true =>
      obtain ⟨q₀, hq₀⟩ := hlive i hS
      exact absurd hq₀ (hfree q₀)
  | full => rfl
  | refused => rfl
  | @removed q' i => exact hupdate q' _ (filter_erase_of_not (hkeep q' i rfl) _)
  | set => rfl

/-- **Stable order.**  Over any further run without a reset, the handlers that stay
registered keep their order on every queue, and once all that was added meanwhile is
removed, in whatever order, every queue is what it was. -/
theorem order_stable (hL : L.Correct) (h : (kernel L).Reaches ls s)
    (run : (kernel L).Exec s ls' s') (hreset : .reset ∉ ls') {S : Hid → Bool}
    (hlive : ∀ i, S i = true → ∃ q, i ∈ s.2 q)
    (hkeep : ∀ i, S i = true → ¬ Removes ls' i) :
    (∀ q, (s'.2 q).filter S = (s.2 q).filter S) ∧
      ((∀ q i, i ∈ s.2 q → S i = true) → (∀ q i, i ∈ s'.2 q → S i = true) → s'.2 = s.2) := by
  have horder : ∀ q, (s'.2 q).filter S = (s.2 q).filter S := by
    induction run with
    | refl => exact fun q => rfl
    | @snoc s₁ s₂ ls₁ l run next ih =>
      have ih := ih (fun hmem => hreset (List.mem_append_left _ hmem)) fun i hi hrem =>
        hkeep i hi (hrem.mono (List.subset_append_left _ _))
      obtain ⟨r, W, hr⟩ := kernel_represents hL (h.exec run)
      -- what was there and is kept is still there
      have hlive' : ∀ i, S i = true → ∃ q, i ∈ s₁.2 q := by
        intro i hi
        obtain ⟨q, hq⟩ := hlive i hi
        have hmem : i ∈ (s₁.2 q).filter S := by
          rw [ih q]
          exact List.mem_filter.mpr ⟨hq, hi⟩
        exact ⟨q, (List.mem_filter.mp hmem).1⟩
      intro q
      rw [← ih q]
      cases next with
      | @reply m A call req names valid hok =>
        change A = r.queues at hr
        subst hr
        obtain ⟨r', hdoes⟩ := W.does hL names valid
        refine after_filter (hdoes.step W) hlive' ?_ q
        rintro q' i rfl
        cases hS : S i with
        | false => rfl
        | true =>
          exact absurd ((removes_of_names names).mono (List.subset_append_right _ _)) (hkeep i hS)
      | served => rfl
      | reset => exact absurd (List.mem_append_right _ (List.mem_singleton_self _)) hreset
  refine ⟨horder, fun hbefore hafter => ?_⟩
  funext q
  have hfilter := horder q
  rwa [List.filter_eq_self.mpr (hbefore q), List.filter_eq_self.mpr (hafter q)] at hfilter

/-- One handler is on INTC queue 0 when another is added in front of it. -/
theorem order_stable_front_add :
    let m₀ := (func_80002090 standard zeroKernel).1.mem
    let add : Call := .func_800018F0 0 (idx (0 : Fin 15)) 0x100 (-1) 0 2
    let m₁ := (exec standard m₀ add).1
    let A₁ := Registry.after (fun _ => []) (.add (.intc 0) (-1) 2) (exec standard m₀ add).2
    let front : Call := .func_800018F0 0 (idx (0 : Fin 15)) 0x200 0 0 2
    let A₂ := A₁.after (.add (.intc 0) 0 2) (exec standard m₁ front).2
    let S := fun i => decide (i ∈ A₁ (.intc 0))
    (∀ q, (A₂ q).filter S = (A₁ q).filter S) ∧
      ((∀ q i, i ∈ A₁ q → S i = true) → (∀ q i, i ∈ A₂ q → S i = true) → A₂ = A₁) := by
  intro m₀ add m₁ A₁ front A₂ S
  have hlevel : ∀ {next q' next' unk'}, Request.add (.intc 0) next 2 = .add q' next' unk' →
      unk' ≠ 3 := by
    rintro next q' next' unk' ⟨⟩
    exact Level.ne_three (.inr rfl)
  have h : (kernel standard).Reaches ([] ++ [.reply add (exec standard m₀ add).2]) (m₁, A₁) :=
    kernel_call (kernel_init _ zeroKernel) (.func_800018F0 0 0 0x100 (-1) 0 2) (.inl rfl)
      fun _ _ _ => hlevel
  have hfront : KernelStep standard (m₁, A₁) (.reply front (exec standard m₁ front).2)
      ((exec standard m₁ front).1, A₂) :=
    .reply (.func_800018F0 0 0 0x200 0 0 2) (.inr (.inl rfl)) fun _ _ _ => hlevel
  have run : (kernel standard).Exec (m₁, A₁) ([] ++ [.reply front (exec standard m₁ front).2])
      ((exec standard m₁ front).1, A₂) := .snoc (.refl _) hfront
  clear_value m₁ A₁ A₂
  refine order_stable standard_correct h run ?_ (fun i hi => ⟨.intc 0, of_decide_eq_true hi⟩) ?_
  · simp
  · rintro i - ⟨cause, ret, h | h⟩
    · exact Call.noConfusion (Label.reply.inj (List.mem_singleton.mp h)).1
    · exact Call.noConfusion (Label.reply.inj (List.mem_singleton.mp h)).1

end Order

/-! ## Accounting -/

/-- The number of ids out once the label is shown, if it was `n` before. -/
def Label.count (n : Nat) : Label → Nat
  | .reply (.func_800018F0 ..) ret | .reply (.func_80001B50 ..) ret =>
      if ret = -1 then n else n + 1
  | .reply (.func_80001AB0 ..) ret | .reply (.func_80001CF8 ..) ret =>
      if ret = -1 then n else n - 1
  | .reply _ _ => n
  | .served _ _ _ => n
  | .reset => 0

/-- The ids handed out and not taken back since the last reset. -/
def outstanding (ls : List Label) : Nat := ls.foldl Label.count 0

def allQueues : List Queue := (List.finRange 15).map .intc ++ (List.finRange 16).map .dmac

/-- The ids on all queues. -/
def Registry.live (A : Registry) : List Hid := allQueues.flatMap A

section Accounting

variable {m m' : Mem} {r r' : Lists} {call : Call} {req : Request} {q : Queue} {next unk ret : Word}

theorem mem_allQueues (q : Queue) : q ∈ allQueues := by
  cases q <;> simp [allQueues]

theorem nodup_allQueues : allQueues.Nodup := by
  have hintc : ((List.finRange 15).map Queue.intc).Nodup :=
    (List.nodup_finRange 15).map fun c d h => by simpa using h
  have hdmac : ((List.finRange 16).map Queue.dmac).Nodup :=
    (List.nodup_finRange 16).map fun c d h => by simpa using h
  refine List.Nodup.append hintc hdmac ?_
  intro q hq hq'
  obtain ⟨c, -, rfl⟩ := List.mem_map.mp hq
  obtain ⟨d, -, hd⟩ := List.mem_map.mp hq'
  cases hd

/-- Queues and pool share out the 128 descriptors. -/
theorem WellFormed.live_length (W : WellFormed m r) :
    r.queues.live.length + (r .pool).length = 128 := by
  have hlive : r.queues.live.Nodup := by
    refine List.nodup_flatMap.mpr ⟨fun q _ => W.nodup (.queue q), ?_⟩
    refine nodup_allQueues.imp fun {q q'} hne i hi hi' => hne ?_
    simpa using W.disj hi hi'
  have hmem : ∀ {i}, i ∈ r.queues.live ↔ ∃ q, i ∈ r (.queue q) := by
    intro i
    rw [Registry.live, List.mem_flatMap]
    exact ⟨fun ⟨q, _, hi⟩ => ⟨q, hi⟩, fun ⟨q, hi⟩ => ⟨q, mem_allQueues q, hi⟩⟩
  have hnodup : (r.queues.live ++ r .pool).Nodup := by
    refine List.Nodup.append hlive (W.nodup .pool) fun i hi hi' => ?_
    obtain ⟨q, hq⟩ := hmem.mp hi
    exact W.notMem_of_ne hi' (by simp) hq
  have hperm : (r.queues.live ++ r .pool).Perm allHids := by
    refine (List.perm_ext_iff_of_nodup hnodup nodup_allHids).mpr fun i => ?_
    rw [List.mem_append, hmem, mem_allHids]
    constructor
    · rintro (⟨q, hi⟩ | hi)
      · exact W.pos hi
      · exact W.pos hi
    · intro hi0
      obtain ⟨h, hi⟩ := W.cover hi0
      cases h with
      | pool => exact .inr hi
      | queue q => exact .inl ⟨q, hi⟩
  have hlen := hperm.length_eq
  rw [List.length_append, allHids, List.length_map, List.length_finRange] at hlen
  exact hlen

theorem outstanding_snoc (ls : List Label) (l : Label) :
    outstanding (ls ++ [l]) = l.count (outstanding ls) := by
  rw [outstanding, List.foldl_append]
  rfl

/-- A call takes a descriptor off the pool, puts one back or leaves it alone, as its
label counts. -/
theorem CallDoes.count (h : CallDoes call m r req m' ret r') (hn : call.Names req)
    (W : WellFormed m r) {n : Nat} (hcount : n + (r .pool).length = 128) :
    (Label.reply call ret).count n + (r' .pool).length = 128 := by
  cases h with
  | refused =>
    have hskip : (Label.reply call (-1)).count n = n := by
      cases hn <;> rw [Label.count, if_pos rfl]
    rw [hskip, hcount]
  | @added q next unk _ _ _ i _ _ A _ =>
    have hstep : (Label.reply call (idx i)).count n = n + 1 := by
      cases hn <;> exact if_neg (idx_ne_neg_one i)
    have hpos := List.length_pos_of_mem A.free
    rw [hstep, Lists.add_pool, List.length_erase_of_mem A.free]
    omega
  | @removed q i _ hi D =>
    have hlen := W.length_le (.queue q)
    have hret : BitVec.ofNat 32 ((r (.queue q)).erase i).length ≠ (-1 : Word) := by
      have hle := (List.erase_sublist (a := i) (l := r (.queue q))).length_le
      exact idx_ne_neg_one ⟨((r (.queue q)).erase i).length, by omega⟩
    have hstep : (Label.reply call (BitVec.ofNat 32 ((r (.queue q)).erase i).length)).count n =
        n - 1 := by
      cases hn <;> exact if_neg hret
    have hlive := W.live_length
    have hpos : 0 < r.queues.live.length :=
      List.length_pos_of_mem (List.mem_flatMap.mpr ⟨q, mem_allQueues q, hi⟩)
    rw [hstep, Lists.remove_pool, List.length_append, List.length_singleton]
    omega
  | @set _ i =>
    have hskip : (Label.reply call (idx i)).count n = n := by
      cases hn <;> rfl
    rw [hskip, hcount]

theorem kernel_counts (hL : L.Correct) (h : (kernel L).Reaches ls s) :
    ∃ r, WellFormed s.1 r ∧ s.2 = r.queues ∧ outstanding ls + (r .pool).length = 128 := by
  refine h.ind (P := fun ls s => ∃ r, WellFormed s.1 r ∧ s.2 = r.queues ∧
    outstanding ls + (r .pool).length = 128) ?_ ?_
  · rintro s ⟨k, rfl⟩
    refine ⟨initLists, func_80002090_wellFormed hL k, rfl, ?_⟩
    simp [outstanding, initLists, allHids]
  · rintro ls s l s' ⟨r, W, hr, hcount⟩ next
    rw [outstanding_snoc]
    cases next with
    | @reply m A call req names valid hok =>
      obtain rfl : A = r.queues := hr
      obtain ⟨r', hdoes⟩ := W.does hL names valid
      exact ⟨r', hdoes.wellFormed W hok, hdoes.queues.symm, hdoes.count names W hcount⟩
    | @served ε m A C t w q hC hs hv fuel hw =>
      obtain ⟨-, -, hsame⟩ := interrupt_shows hC (W.congr hs).toCounted hv hw
      exact ⟨r, W.congr (hs.trans hsame), hr, hcount⟩
    | @reset k A hidle =>
      have W' := func_800021F0_rebuilds hL ⟨r, W, hr.symm⟩ hidle
      refine ⟨initLists, W', rfl, ?_⟩
      simp [Label.count, initLists, allHids]

/-- **Accounting.**  The counter is the number of ids out, which is the number of ids on
the queues; an Add the door lets through is refused exactly when 128 are out. -/
theorem accounting (hL : L.Correct) (h : (kernel L).Reaches ls s) :
    func_80002080 s.1 = BitVec.ofNat 32 (outstanding ls) ∧
      outstanding ls = s.2.live.length ∧ outstanding ls ≤ 128 ∧
      ∀ (call : Call) (q : Queue) (next unk : Word), call.Names (.add q next unk) →
        (Request.add q next unk).Valid s.2 → ¬ Refused q unk →
        ((exec L s.1 call).2 = -1 ↔ outstanding ls = 128) := by
  obtain ⟨m, A⟩ := s
  obtain ⟨r, W, hr, hcount⟩ := kernel_counts hL h
  obtain rfl : A = r.queues := hr
  have hlen := W.live_length
  have hlive : outstanding ls = r.queues.live.length := by omega
  refine ⟨?_, hlive, by omega, fun call q next unk hn hv hok => ?_⟩
  · have hused : func_80002080 m = m.read Cell.used.word := rfl
    rw [hused, W.used]
    congr 1
    omega
  · obtain ⟨r', hdoes⟩ := W.does hL hn hv
    generalize (exec L m call).1 = m' at hdoes
    generalize (exec L m call).2 = ret at hdoes
    cases hdoes with
    | refused href =>
      have hp := href.resolve_left hok
      rw [hp, List.length_nil] at hcount
      exact iff_of_true rfl (by omega)
    | added _ A _ =>
      have hpos := List.length_pos_of_mem A.free
      exact iff_of_false (idx_ne_neg_one _) (by omega)

/-- After one Add. -/
theorem accounting_one_add :
    let m₀ := (func_80002090 standard zeroKernel).1.mem
    let add : Call := .func_800018F0 0 (idx (0 : Fin 15)) 0x100 (-1) 0 2
    let m₁ := (exec standard m₀ add).1
    let A₁ := Registry.after (fun _ => []) (.add (.intc 0) (-1) 2) (exec standard m₀ add).2
    let ls : List Label := [.reply add (exec standard m₀ add).2]
    func_80002080 m₁ = BitVec.ofNat 32 (outstanding ls) ∧
      outstanding ls = A₁.live.length ∧ outstanding ls ≤ 128 ∧
      ∀ (call : Call) (q : Queue) (next unk : Word), call.Names (.add q next unk) →
        (Request.add q next unk).Valid A₁ → ¬ Refused q unk →
        ((exec standard m₁ call).2 = -1 ↔ outstanding ls = 128) := by
  intro m₀ add m₁ A₁ ls
  have hok : ∀ q next unk, Request.add (.intc 0) (-1) 2 = .add q next unk → unk ≠ 3 := by
    rintro q next unk ⟨⟩
    exact Level.ne_three (.inr rfl)
  have h : (kernel standard).Reaches ([] ++ [.reply add (exec standard m₀ add).2]) (m₁, A₁) :=
    kernel_call (kernel_init _ zeroKernel) (.func_800018F0 0 0 0x100 (-1) 0 2) (.inl rfl) hok
  clear_value m₁ A₁
  exact accounting standard_correct h

end Accounting

/-! ## Memory -/

section Memory

variable {k₀ k : Kernel} {A : Registry}

theorem queueCells_owned (q : Queue) : queueCells q ⊆ {c | c.Owned} := by
  rintro c (rfl | rfl | rfl)
  · exact Node.noConfusion
  · exact Node.noConfusion
  · exact trivial

theorem poolCells_owned : poolCells ⊆ {c | c.Owned} := by
  rintro c ((rfl | rfl) | ⟨i, hi, rfl | rfl | rfl | rfl⟩)
  · exact Node.noConfusion
  · exact Node.noConfusion
  · exact fun h => hi (Node.hnd.inj h)
  · exact fun h => hi (Node.hnd.inj h)
  · exact hi
  · exact hi

theorem clearQueues_owned (qs : List Queue) (m : Mem) :
    ChangesOnly {c | c.Owned} m (clearQueues qs m) :=
  (clearQueues_frame qs m).mono fun _ ⟨q, _, hc⟩ => queueCells_owned q hc

theorem func_80002090_frame (hL : L.Correct) (k : Kernel) :
    ChangesOnly {c | c.Owned} k.mem (func_80002090 L k).1.mem := by
  rw [func_80002090_mem]
  have hmem : Cell.used ∈ {c : Cell | c.Owned} := trivial
  have hused : ChangesOnly {c | c.Owned} k.mem (k.mem.write D_8001B400 0) :=
    (ChangesOnly.refl k.mem).write hmem
  have hsbus : ∀ m, ChangesOnly {c | c.Owned} m (clearSbus m) := by
    intro m
    refine (clearSbus_frame m).mono ?_
    rintro _ ⟨k, rfl⟩
    exact trivial
  have hintc := hused.trans (clearQueues_owned ((List.finRange 15).map .intc) _)
  have hdmac := (hintc.trans (hsbus _)).trans (clearQueues_owned ((List.finRange 16).map .dmac) _)
  exact hdmac.trans ((rebuildPool_spec hL _).2.mono poolCells_owned)

theorem func_800021F0_frame (hL : L.Correct) (k : Kernel) :
    ChangesOnly {c | c.Owned} k.mem (func_800021F0 L k).1.mem := by
  refine (func_800021F0_spec hL k).2.mono ?_
  rintro c ((rfl | ⟨q, -, hc⟩) | hc)
  · exact trivial
  · exact queueCells_owned q hc
  · exact poolCells_owned hc

/-- **Memory safety.**  In every run of initialisation, valid calls, SBUS registrations
and soft resets, no word is written but those of the tables, which lie between
`D_8001B400` and `D_8001C228`: not the VSYNC pointers, not descriptor 0, not the alarms. -/
theorem tables_confined (hL : L.Correct) (run : Reached L SbusIdle k₀ k A) :
    (∀ a : Word, (∀ c : Cell, c.Owned → a ≠ c.word) → k.mem.read a = k₀.mem.read a) ∧
      ∀ c : Cell, c.Owned → 0x8001B400 ≤ c.addr ∧ c.addr < 0x8001C228 := by
  refine ⟨?_, fun c _ => c.addr_range⟩
  change ChangesOnly {c | c.Owned} k₀.mem k.mem
  induction run with
  | init => exact func_80002090_frame hL k₀
  | @call k A call req run names valid hok ih =>
    obtain ⟨⟨r, W, rfl⟩, -⟩ := run.inv hL
    obtain ⟨r', hdoes⟩ := W.does hL names valid
    exact ih.trans ((hdoes.frame W).mono fun c hc => c.owned_of_writable hc)
  | @sbus k A run bit f ih =>
    have hmem : Cell.sbus bit ∈ {c : Cell | c.Owned} := trivial
    exact ih.write hmem
  | @reset k A run hidle ih => exact ih.trans (func_800021F0_frame hL k)

/-- A user handler, an SBUS handler and a soft reset. -/
theorem tables_confined_reset :
    let k := (func_80002090 standard zeroKernel).1
    let call : Call := .func_800018F0 0x10 (idx (0 : Fin 15)) 0x100 (-1) 7 2
    let added : Kernel := { k with mem := (exec standard k.mem call).1 }
    let filled : Kernel := { added with mem := added.mem.write (Cell.sbus 3).word 0x200 }
    let k' := (func_800021F0 standard filled).1
    (∀ a : Word, (∀ c : Cell, c.Owned → a ≠ c.word) →
      k'.mem.read a = zeroKernel.mem.read a) ∧
      ∀ c : Cell, c.Owned → 0x8001B400 ≤ c.addr ∧ c.addr < 0x8001C228 := by
  intro k call added filled k'
  have hok : ∀ q next unk, Request.add (.intc 0) (-1) 2 = .add q next unk → Level unk := by
    rintro q next unk ⟨⟩
    exact .inr rfl
  have run : Reached standard SbusIdle zeroKernel added
      (Registry.after (fun _ => []) (.add (.intc 0) (-1) 2) (exec standard k.mem call).2) :=
    .call .init (.func_800018F0 0x10 0 0x100 (-1) 7 2) (.inl rfl) hok
  have hidle : SbusIdle
      (Registry.after (fun _ => []) (.add (.intc 0) (-1) 2) (exec standard k.mem call).2) := by
    rw [SbusIdle, Registry.after]
    split
    · rfl
    · exact Function.update_of_ne (by decide) _ _
  exact tables_confined standard_correct ((run.sbus 3 0x200).reset hidle)

end Memory

end EeKernel.Intr
