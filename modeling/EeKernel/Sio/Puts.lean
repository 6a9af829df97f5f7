import EeKernel.Sio.Model

/-!
# The string handshake

Each character goes over in one exchange: it is put in `com_send`, announced,
waited for until the other side sets bit 1 of `unk20`, and confirmed.  Whatever
the other side answers and however long it takes, what `func_80015838` does is a
number of complete exchanges, those of the first characters, and no more than a
part of one for the next.
-/

namespace EeKernel.Sio

open EeKernel.Lib

abbrev PifAccess := Access PifReg (BitVec 16) Empty

/-- The characters of a string before its terminator, as they are sent. -/
def text (s : List (BitVec 8)) : List (BitVec 16) :=
  (s.takeWhile fun c => c ≠ 0).map fun c => c.signExtend 16

/-- The exchange of one character; `waits` are the answers before the one that ends it. -/
def exchange (c : BitVec 16) (waits : List (BitVec 16)) (ack : BitVec 16) : List PifAccess :=
  .store .com_send c :: .store .unk30 1 ::
    (waits.map (.load .unk20) ++ [.load .unk20 ack, .store .unk2C 2])

/-- The answers of an exchange: bit 1 is set in the last one and no other. -/
structure Answers (waits : List (BitVec 16)) (ack : BitVec 16) : Prop where
  waits : ∀ v ∈ waits, v &&& 2 = 0
  ack : ack &&& 2 ≠ 0

/-- The exchanges of `cs`, one after the other. -/
inductive Session : List (BitVec 16) → List PifAccess → Prop
  | nil : Session [] []
  | cons {c ack : BitVec 16} {cs waits : List (BitVec 16)} {t : List PifAccess}
      (h : Answers waits ack) (rest : Session cs t) :
      Session (c :: cs) (exchange c waits ack ++ t)

/-- Part of an exchange of `c`. -/
def Part (c : BitVec 16) (t : List PifAccess) : Prop :=
  ∃ waits ack rest, Answers waits ack ∧ rest ≠ [] ∧ t ++ rest = exchange c waits ack

/-- `cs` is being sent: `sent` went over, and of the next character a part.  `whole` says that
nothing is left. -/
structure Sending (cs : List (BitVec 16)) (t : List PifAccess) (whole : Prop)
    (sent rest : List (BitVec 16)) (t₁ t₂ : List PifAccess) : Prop where
  split : cs = sent ++ rest
  trace : t = t₁ ++ t₂
  session : Session sent t₁
  whole : rest = [] ↔ whole
  none : rest = [] → t₂ = []
  part : ∀ c rest', rest = c :: rest' → Part c t₂

section Session

variable {cs cs' sent rest : List (BitVec 16)} {t t' t₁ t₂ : List PifAccess} {whole : Prop}
  {c : BitVec 16} {s : List (BitVec 8)} {q : PifDriver Unit}

theorem Session.append (h : Session cs t) (h' : Session cs' t') :
    Session (cs ++ cs') (t ++ t') := by
  induction h with
  | nil => exact h'
  | cons ha _ ih =>
    rw [List.cons_append, List.append_assoc]
    exact .cons ha ih

theorem Sending.session_append (h : Session cs t) (S : Sending cs' t' whole sent rest t₁ t₂) :
    Sending (cs ++ cs') (t ++ t') whole (cs ++ sent) rest (t ++ t₁) t₂ where
  split := by rw [S.split, List.append_assoc]
  trace := by rw [S.trace, List.append_assoc]
  session := h.append S.session
  whole := S.whole
  none := S.none
  part := S.part

/-- The first exchange has been begun. -/
theorem Sending.begun (hopen : ¬ whole) (h : Part c t) :
    Sending (c :: cs) t whole [] (c :: cs) [] t where
  split := rfl
  trace := rfl
  session := .nil
  whole := iff_of_false (List.cons_ne_nil c cs) hopen
  none h := absurd h (List.cons_ne_nil c cs)
  part := by
    rintro _ _ ⟨⟩
    exact h

theorem Part.of_append {waits : List (BitVec 16)} {ack : BitVec 16} {rest : List PifAccess}
    (h : Answers waits ack) (hrest : rest ≠ []) (heq : t ++ rest = exchange c waits ack) :
    Part c t := ⟨waits, ack, rest, h, hrest, heq⟩

theorem text_cons {x : BitVec 8} (hx : x ≠ 0) : text (x :: s) = x.signExtend 16 :: text s := by
  unfold text
  rw [List.takeWhile_cons_of_pos (by simpa using hx)]
  rfl

theorem text_zero : text (0 :: s) = [] := by
  unfold text
  rw [List.takeWhile_cons_of_neg (by simp)]
  rfl

/-- What a run of `func_80015838` comes to, for any device. -/
theorem puts_sending (run : Driver.Goes (func_80015838 s) t q) :
    ∃ sent rest t₁ t₂, Sending (text s) t (q = .done ()) sent rest t₁ t₂ := by
  induction s generalizing t q with
  | nil =>
    obtain ⟨rfl, rfl⟩ := run.done
    exact ⟨[], [], [], [], rfl, rfl, .nil, by simp, fun _ => rfl, by simp⟩
  | cons x s ih =>
    unfold func_80015838 at run
    by_cases hx : x = 0
    · subst hx
      rw [if_pos rfl] at run
      obtain ⟨rfl, rfl⟩ := run.done
      exact ⟨[], [], [], [], text_zero, rfl, .nil, by simp, fun _ => rfl, by simp⟩
    rw [if_neg hx] at run
    rw [text_cons hx]
    -- an exchange that would go on with the acknowledgement at once
    have hnow : ∀ waits : List (BitVec 16), (∀ v ∈ waits, v &&& 2 = 0) → Answers waits 2 :=
      fun waits hw => ⟨hw, by decide⟩
    rcases run.store with ⟨rfl, rfl⟩ | ⟨u, rfl, announce⟩
    · refine ⟨_, _, _, _, .begun (by simp) ?_⟩
      exact .of_append (hnow [] (by simp)) (List.cons_ne_nil _ _) rfl
    rcases announce.store with ⟨rfl, rfl⟩ | ⟨u, rfl, wait⟩
    · refine ⟨_, _, _, _, .begun (by simp) ?_⟩
      exact .of_append (hnow [] (by simp)) (List.cons_ne_nil _ _) rfl
    obtain ⟨waits, hwaits, ⟨rfl, rfl⟩ | ⟨ack, u, hack, rfl, confirm⟩⟩ := wait.wait
    · have hw : ∀ v ∈ waits, v &&& 2 = 0 := fun v hv => of_decide_eq_true (hwaits v hv)
      refine ⟨_, _, _, _, .begun (by simp) ?_⟩
      exact .of_append (hnow waits hw) (List.cons_ne_nil _ _) rfl
    have hA : Answers waits ack :=
      ⟨fun v hv => of_decide_eq_true (hwaits v hv), of_decide_eq_false hack⟩
    rcases confirm.store with ⟨rfl, rfl⟩ | ⟨u, rfl, later⟩
    · refine ⟨_, _, _, _, .begun (by simp) ?_⟩
      have hleft : [(.store .unk2C 2 : PifAccess)] ≠ [] := List.cons_ne_nil _ _
      exact .of_append hA hleft (by simp [exchange])
    obtain ⟨sent, rest, t₁, t₂, S⟩ := ih later
    have hone : Session [x.signExtend 16] (exchange (x.signExtend 16) waits ack ++ []) :=
      .cons hA .nil
    rw [List.append_nil] at hone
    have hfirst := S.session_append hone
    have htrace : exchange (x.signExtend 16) waits ack ++ u =
        .store .com_send (x.signExtend 16) :: .store .unk30 1 ::
          (waits.map (.load .unk20) ++ .load .unk20 ack :: .store .unk2C 2 :: u) := by
      simp [exchange]
    rw [htrace] at hfirst
    exact ⟨_, _, _, _, hfirst⟩

theorem puts_answerable (s : List (BitVec 8)) : (func_80015838 s).Answerable := by
  induction s with
  | nil => exact trivial
  | cons x s ih =>
    unfold func_80015838
    split
    · exact trivial
    · exact ⟨⟨2, by decide⟩, ih⟩

/-- Any complete session is a run. -/
theorem Session.goes (h : Session (text s) t) : Driver.Goes (func_80015838 s) t (.done ()) := by
  induction s generalizing t with
  | nil =>
    cases h
    exact .refl _
  | cons x s ih =>
    unfold func_80015838
    by_cases hx : x = 0
    · subst hx
      rw [text_zero] at h
      cases h
      rw [if_pos rfl]
      exact .refl _
    rw [text_cons hx] at h
    rw [if_neg hx]
    cases h with
    | @cons c ack cs waits t hA rest =>
      let confirm : PifDriver Unit := .store .unk2C 2 (func_80015838 s)
      let wait : PifDriver Unit := .poll .unk20 (fun v => v &&& 2 = 0) [] confirm
      let announce : PifDriver Unit := .store .unk30 1 wait
      have hput : Driver.Goes (.store .com_send (x.signExtend 16) announce)
          [.store .com_send (x.signExtend 16)] announce := .single .store
      have hannounce : Driver.Goes announce [.store .unk30 1] wait := .single .store
      have hwait : Driver.Goes wait (waits.map (.load .unk20) ++ [.load .unk20 ack]) confirm :=
        Driver.goes_wait (fun v hv => decide_eq_true (hA.waits v hv)) (decide_eq_false hA.ack)
      have hconfirm : Driver.Goes confirm [.store .unk2C 2] (func_80015838 s) := .single .store
      have hall := hput.trans (hannounce.trans (hwait.trans (hconfirm.trans (ih rest))))
      have htrace : exchange (x.signExtend 16) waits ack ++ t = [.store .com_send (x.signExtend 16)]
          ++ ([.store .unk30 1] ++ ((waits.map (.load .unk20) ++ [.load .unk20 ack])
            ++ ([.store .unk2C 2] ++ t))) := by
        simp [exchange]
      rw [htrace]
      exact hall

/-- **Handshake.** -/
theorem puts_delivers (s : List (BitVec 8)) :
    (∀ t q, Driver.Goes (func_80015838 s) t q →
      (∃ sent rest t₁ t₂, Sending (text s) t (q = .done ()) sent rest t₁ t₂) ∧
        ∃ t', Driver.Goes q t' (.done ())) ∧
      ∀ t, Driver.Goes (func_80015838 s) t (.done ()) ↔ Session (text s) t := by
  refine ⟨fun t q run => ⟨puts_sending run, ?_⟩, fun t => ⟨fun run => ?_, Session.goes⟩⟩
  · obtain ⟨t', ⟨⟩, finish⟩ := ((puts_answerable s).goes run).finishes
    exact ⟨t', finish⟩
  · obtain ⟨sent, rest, t₁, t₂, S⟩ := puts_sending run
    have hrest := S.whole.mpr rfl
    rw [S.split, S.trace, hrest, S.none hrest, List.append_nil, List.append_nil]
    exact S.session

/-! ## The panic -/

/-- Not all of a text has gone, and another is to come. -/
theorem Sending.more (S : Sending cs t whole sent rest t₁ t₂) (hopen : ¬ whole) {whole' : Prop}
    (hopen' : ¬ whole') (cs' : List (BitVec 16)) :
    Sending (cs ++ cs') t whole' sent (rest ++ cs') t₁ t₂ := by
  have hrest : rest ≠ [] := mt S.whole.mp hopen
  exact
    { split := by rw [S.split, List.append_assoc]
      trace := S.trace
      session := S.session
      whole := iff_of_false (by simp [hrest]) hopen'
      none := fun h => absurd (List.append_eq_nil_iff.mp h).1 hrest
      part := by
        cases rest with
        | nil => exact absurd rfl hrest
        | cons c rest =>
          rintro _ _ ⟨⟩
          exact S.part c rest rfl }

theorem putsAll_answerable (ss : List (List (BitVec 8))) : (putsAll ss).Answerable := by
  induction ss with
  | nil => exact trivial
  | cons s ss ih => exact (puts_answerable s).bind fun _ => ih

theorem putsAll_sending {ss : List (List (BitVec 8))} (run : Driver.Goes (putsAll ss) t q) :
    ∃ sent rest t₁ t₂, Sending (ss.flatMap text) t (q = .done ()) sent rest t₁ t₂ := by
  induction ss generalizing t q with
  | nil =>
    obtain ⟨rfl, rfl⟩ := run.done
    exact ⟨[], [], [], [], rfl, rfl, .nil, by simp, fun _ => rfl, by simp⟩
  | cons s ss ih =>
    rw [List.flatMap_cons]
    -- a run that has gone through `s` is one of the others
    have hthrough : ∀ {u v : List PifAccess}, Driver.Goes (func_80015838 s) u (.done ()) →
        Driver.Goes (putsAll ss) v q → ∃ sent rest t₁ t₂,
          Sending (text s ++ ss.flatMap text) (u ++ v) (q = .done ()) sent rest t₁ t₂ := by
      intro u v first later
      obtain ⟨sent, rest, t₁, t₂, S⟩ := ih later
      exact ⟨_, _, _, _, S.session_append (((puts_delivers s).2 u).mp first)⟩
    rcases run.bind with ⟨p, first, rfl⟩ | ⟨⟨⟩, u, v, rfl, first, later⟩
    · obtain ⟨sent, rest, t₁, t₂, S⟩ := puts_sending first
      by_cases hp : p = .done ()
      · subst hp
        rw [← List.append_nil t]
        exact hthrough first (.refl _)
      · have hopen : p.bind (fun _ => putsAll ss) ≠ .done () := by
          cases p with
          | done a => exact absurd rfl hp
          | _ => nofun
        exact ⟨_, _, _, _, S.more hp hopen _⟩
    · exact hthrough first later

theorem causeString_mem {e : CauseString} (he : e ∈ deci2_err_cause)
    (beyond : List (BitVec 8)) : causeString beyond (causeIndex e.id) = chars e.string := by
  simp only [deci2_err_cause, List.mem_cons, List.not_mem_nil, or_false] at he
  rcases he with rfl | rfl | rfl | rfl | rfl | rfl <;> rfl

theorem causeString_beyond {cause : Word} (h : ∀ e ∈ deci2_err_cause, cause ≠ e.id)
    (beyond : List (BitVec 8)) : causeString beyond (causeIndex cause) = beyond := by
  have hindex : causeIndex cause = deci2_err_cause.length := by
    unfold causeIndex
    rw [List.findIdx_eq_length]
    exact fun e he => decide_eq_false (h e he)
  unfold causeString
  rw [hindex, List.getElem?_length]

/-- **Panic.** -/
theorem panic_says (beyond : List (BitVec 8)) (cause : Word) (msg : List (BitVec 8)) :
    ∃ label, (∀ e ∈ deci2_err_cause, cause = e.id → label = chars e.string) ∧
      ((∀ e ∈ deci2_err_cause, cause ≠ e.id) → label = beyond) ∧
      ∀ t q, Driver.Goes (func_8000FE18 beyond cause msg) t q →
        (∃ sent rest t₁ t₂, Sending (text (chars "\n# EE DECI2 Panic!!!\n\t") ++ text label ++
          text (chars ": ") ++ text msg ++ text (chars "\n")) t (q = .hang) sent rest t₁ t₂) ∧
        ∃ t', Driver.Goes q t' .hang := by
  refine ⟨causeString beyond (causeIndex cause), ?_, fun h => causeString_beyond h beyond, ?_⟩
  · rintro e he rfl
    exact causeString_mem he beyond
  intro t q run
  have htext : (panicStrings beyond cause msg).flatMap text =
      text (chars "\n# EE DECI2 Panic!!!\n\t") ++ text (causeString beyond (causeIndex cause)) ++
        text (chars ": ") ++ text msg ++ text (chars "\n") := by
    simp [panicStrings]
  rw [← htext]
  rcases Driver.Goes.bind run with ⟨p, first, rfl⟩ | ⟨⟨⟩, u, v, rfl, first, stop⟩
  · have hp : p.Answerable := (putsAll_answerable _).goes first
    obtain ⟨sent, rest, t₁, t₂, S⟩ := putsAll_sending first
    have hopen : p = .done () ↔ p.bind (fun _ => .hang) = (.hang : PifDriver Unit) := by
      constructor
      · rintro rfl
        rfl
      · intro h
        by_contra hne
        exact hp.bind_ne_hang (fun _ => hne) h
    rw [← hopen]
    obtain ⟨t', ⟨⟩, finish⟩ := hp.finishes
    exact ⟨⟨sent, rest, t₁, t₂, S⟩, t', finish.of_bind fun _ => .hang⟩
  · obtain ⟨rfl, rfl⟩ := stop.hang
    obtain ⟨sent, rest, t₁, t₂, S⟩ := putsAll_sending first
    rw [List.append_nil]
    refine ⟨⟨sent, rest, t₁, t₂, ?_⟩, [], .refl _⟩
    exact { S with whole := S.whole.trans (by simp) }

end Session

end EeKernel.Sio
