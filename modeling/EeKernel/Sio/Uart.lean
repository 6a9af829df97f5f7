import EeKernel.Sio.Model

/-!
# The serial port at work

The port sends from one queue of bytes and receives into another.  It moves on at
any time, and what it shows of itself in `SIO_ISR` is how many bytes are in each.
`func_80015700` waits only while the first is full and so loses nothing, and
`func_80015748` reads the second only while there is something in it, and drops
all that was.
-/

namespace EeKernel.Sio

open EeKernel.Lib

abbrev SioAccess := Access Reg Word String

/-- Four bits of a status word. -/
def level (v : Word) (k : Nat) : Nat := ((v >>> k) &&& 0xf#32).toNat

/-- The port: the bytes waiting to be sent, sent, refused, received and taken, and how often
a byte was asked for when there was none. -/
structure Uart where
  tx : List (BitVec 8)
  wire : List (BitVec 8)
  lost : List (BitVec 8)
  rx : List (BitVec 8)
  taken : List (BitVec 8)
  starved : Nat
  tx_le : tx.length ≤ 8
  rx_le : rx.length ≤ 15

namespace Uart

def push (u : Uart) (c : BitVec 8) (h : u.tx.length < 8) : Uart :=
  { u with tx := u.tx ++ [c], tx_le := by rw [List.length_append]; exact h }

def shift (u : Uart) (c : BitVec 8) (rest : List (BitVec 8)) (h : u.tx = c :: rest) : Uart :=
  { u with
    tx := rest
    wire := u.wire ++ [c]
    tx_le := by
      have hle := u.tx_le
      rw [h] at hle
      exact Nat.le_of_succ_le hle }

def receive (u : Uart) (c : BitVec 8) (h : u.rx.length < 15) : Uart :=
  { u with rx := u.rx ++ [c], rx_le := by rw [List.length_append]; exact h }

def pop (u : Uart) (c : BitVec 8) (rest : List (BitVec 8)) (h : u.rx = c :: rest) : Uart :=
  { u with
    rx := rest
    taken := u.taken ++ [c]
    rx_le := by
      have hle := u.rx_le
      rw [h] at hle
      exact Nat.le_of_succ_le hle }

inductive Takes : Uart → SioAccess → Uart → Prop
  | status {u : Uart} {v : Word} (htx : level v 12 = u.tx.length) (hrx : level v 8 = u.rx.length) :
      Takes u (.load .SIO_ISR v) u
  | line {u : Uart} (v : Word) : Takes u (.load .SIO_LSR v) u
  | pop {u : Uart} {c : BitVec 8} {rest : List (BitVec 8)} (h : u.rx = c :: rest) :
      Takes u (.load .SIO_RXFIFO (c.setWidth 32)) (u.pop c rest h)
  | starve {u : Uart} (h : u.rx = []) (v : Word) :
      Takes u (.load .SIO_RXFIFO v) { u with starved := u.starved + 1 }
  | push {u : Uart} {v : Word} (h : u.tx.length < 8) :
      Takes u (.store .SIO_TXFIFO v) (u.push (v.setWidth 8) h)
  | lose {u : Uart} {v : Word} (h : u.tx.length = 8) :
      Takes u (.store .SIO_TXFIFO v) { u with lost := u.lost ++ [v.setWidth 8] }
  | write {u : Uart} {r : Reg} (v : Word) (h : r ≠ .SIO_TXFIFO) : Takes u (.store r v) u
  | call {u : Uart} (s : String) : Takes u (.call s) u

inductive Moves : Uart → Uart → Prop
  | shift {u : Uart} {c : BitVec 8} {rest : List (BitVec 8)} (h : u.tx = c :: rest) :
      Moves u (u.shift c rest h)
  | receive {u : Uart} {c : BitVec 8} (h : u.rx.length < 15) : Moves u (u.receive c h)

end Uart

def uart : Device Reg Word String Uart where
  takes := Uart.Takes
  moves := Uart.Moves

/-! ## Reading the status -/

theorem field_mask (v : Word) (k : Nat) :
    v &&& (0xf#32 <<< k) = ((v >>> k) &&& 0xf#32) <<< k := by
  apply BitVec.eq_of_getLsbD_eq
  intro i hi
  by_cases hk : i < k
  · simp [hk]
  · have hsum : k + (i - k) = i := by omega
    simp [hi, hk, hsum]

/-- `(v & 0xf000) == 0x8000` -/
theorem full_iff (v : Word) : v &&& 0xf000 = 0x8000 ↔ level v 12 = 8 := by
  have hmask := field_mask v 12
  have hlt : ((v >>> 12) &&& 0xf#32).toNat < 16 := by
    rw [BitVec.toNat_and]
    exact Nat.and_lt_two_pow (n := 4) _ (by decide)
  change v &&& 0xf000#32 = _ at hmask
  change v &&& 0xf000#32 = 0x8000#32 ↔ _
  rw [hmask, level, ← BitVec.toNat_inj, BitVec.toNat_shiftLeft, Nat.shiftLeft_eq]
  simp only [BitVec.toNat_ofNat]
  omega

/-- `v & 0xf00` -/
theorem empty_iff (v : Word) : v &&& 0xf00 = 0 ↔ level v 8 = 0 := by
  have hmask := field_mask v 8
  have hlt : ((v >>> 8) &&& 0xf#32).toNat < 16 := by
    rw [BitVec.toNat_and]
    exact Nat.and_lt_two_pow (n := 4) _ (by decide)
  change v &&& 0xf00#32 = _ at hmask
  change v &&& 0xf00#32 = 0#32 ↔ _
  rw [hmask, level, ← BitVec.toNat_inj, BitVec.toNat_shiftLeft, Nat.shiftLeft_eq]
  simp only [BitVec.toNat_ofNat]
  omega

/-- A status word with these levels. -/
theorem exists_status (u : Uart) : ∃ v, u.Takes (.load .SIO_ISR v) u := by
  have htx := u.tx_le
  have hrx := u.rx_le
  have hmask : (0xf#32).toNat = 2 ^ 4 - 1 := rfl
  refine ⟨BitVec.ofNat 32 (u.tx.length * 4096 + u.rx.length * 256), .status ?_ ?_⟩
  · unfold level
    rw [BitVec.toNat_and, hmask, Nat.and_two_pow_sub_one_eq_mod, BitVec.toNat_ushiftRight,
      BitVec.toNat_ofNat, Nat.shiftRight_eq_div_pow]
    omega
  · unfold level
    rw [BitVec.toNat_and, hmask, Nat.and_two_pow_sub_one_eq_mod, BitVec.toNat_ushiftRight,
      BitVec.toNat_ofNat, Nat.shiftRight_eq_div_pow]
    omega

/-! ## Sending -/

/-- Characters put one after the other. -/
def putcAll : List (BitVec 8) → SioDriver Unit
  | [] => .done ()
  | c :: s => (func_80015700 c).bind fun _ => putcAll s

/-- Putting `s` from `u`: where the driver is, and what the port has of it. -/
inductive Putting (s : List (BitVec 8)) (u : Uart) : SioDriver Unit × Uart → Prop
  | waiting {put rest : List (BitVec 8)} {u' : Uart} (split : s = put ++ rest)
      (lost : u'.lost = u.lost) (sent : u'.wire ++ u'.tx = u.wire ++ u.tx ++ put) :
      Putting s u (putcAll rest, u')
  | ready {put rest : List (BitVec 8)} {c : BitVec 8} {u' : Uart} (split : s = put ++ c :: rest)
      (lost : u'.lost = u.lost) (sent : u'.wire ++ u'.tx = u.wire ++ u.tx ++ put)
      (room : u'.tx.length < 8) :
      Putting s u (.store .SIO_TXFIFO (c.setWidth 32) (putcAll rest), u')

section Putting

variable {s : List (BitVec 8)} {u u' u'' : Uart} {p q : SioDriver Unit × Uart} {c : BitVec 8}
  {l : Option SioAccess} {ls : List (Option SioAccess)}

/-- The port moves on: of what it has to send it keeps the order, and room stays. -/
theorem Uart.Moves.sends (h : u.Moves u') :
    u'.wire ++ u'.tx = u.wire ++ u.tx ∧ u'.lost = u.lost ∧ u'.tx.length ≤ u.tx.length := by
  cases h with
  | @shift c rest h =>
    refine ⟨?_, rfl, ?_⟩
    · change u.wire ++ [c] ++ rest = _
      rw [h, List.append_assoc, List.singleton_append]
    · rw [h]
      exact Nat.le_succ _
  | receive h => exact ⟨rfl, rfl, Nat.le_refl _⟩

theorem Putting.step (h : Putting s u p) (next : (attached uart Unit).step p l q) :
    Putting s u q := by
  cases h with
  | @waiting put rest u' split lost sent =>
    cases next with
    | move moved =>
      obtain ⟨hsends, hlost, -⟩ := moved.sends
      exact .waiting split (hlost.trans lost) (hsends.trans sent)
    | access next took =>
      cases rest with
      | nil => cases next
      | cons c rest =>
        cases next with
        | again hfull =>
          cases took with
          | status _ _ => exact .waiting split lost sent
        | exit hroom =>
          cases took with
          | status htx _ =>
            have hne : u'.tx.length ≠ 8 := by
              rw [← htx]
              exact mt (full_iff _).mpr (of_decide_eq_false hroom)
            exact .ready split lost sent (Nat.lt_of_le_of_ne u'.tx_le hne)
  | @ready put rest c u' split lost sent room =>
    cases next with
    | move moved =>
      obtain ⟨hsends, hlost, hle⟩ := moved.sends
      exact .ready split (hlost.trans lost) (hsends.trans sent) (Nat.lt_of_le_of_lt hle room)
    | access next took =>
      cases next
      have hbyte : (c.setWidth 32).setWidth 8 = c := by
        rw [BitVec.setWidth_setWidth_of_le c (by decide), BitVec.setWidth_eq]
      cases took with
      | push h =>
        have hsplit : s = (put ++ [c]) ++ rest := by rw [split, List.append_assoc]; rfl
        refine .waiting hsplit lost ?_
        change u'.wire ++ (u'.tx ++ [(c.setWidth 32).setWidth 8]) = _
        rw [hbyte, ← List.append_assoc, sent, List.append_assoc]
      | lose h => exact absurd room (Nat.not_lt_of_le (Nat.le_of_eq h.symm))
      | write _ h => exact absurd rfl h

theorem Putting.exec (h : Putting s u p) (run : (attached uart Unit).Exec p ls q) :
    Putting s u q := by
  induction run with
  | refl => exact h
  | snoc _ next ih => exact ih.step next

/-! ### Every character can be sent -/

/-- The port can make room. -/
theorem exists_room (p : SioDriver Unit) (u : Uart) :
    ∃ ls u', (attached uart Unit).Exec (p, u) ls (p, u') ∧ u'.tx.length < 8 := by
  by_cases hfull : u.tx.length < 8
  · exact ⟨[], u, .refl _, hfull⟩
  · cases htx : u.tx with
    | nil =>
      rw [htx] at hfull
      exact absurd (by decide) hfull
    | cons c rest =>
      have hle := u.tx_le
      rw [htx] at hle
      exact ⟨[none], u.shift c rest htx, .single (Attached.move (.shift htx)),
        Nat.lt_of_succ_le hle⟩

theorem putcAll_finishes (s : List (BitVec 8)) (u : Uart) :
    ∃ ls u', (attached uart Unit).Exec (putcAll s, u) ls (.done (), u') := by
  induction s generalizing u with
  | nil => exact ⟨[], u, .refl _⟩
  | cons c s ih =>
    obtain ⟨ls₁, u₁, drained, hroom⟩ := exists_room (putcAll (c :: s)) u
    obtain ⟨v, hv⟩ := exists_status u₁
    have hnotfull : ¬ v &&& 0xf000 = 0x8000 := by
      cases hv with
      | status htx _ =>
        rw [full_iff, htx]
        exact Nat.ne_of_lt hroom
    let put : SioDriver Unit := .store .SIO_TXFIFO (c.setWidth 32) (putcAll s)
    have hready : (attached uart Unit).Exec (putcAll (c :: s), u₁) [some (.load .SIO_ISR v)]
        (put, u₁) := .single (.access (.exit (decide_eq_false hnotfull)) hv)
    have hput : (attached uart Unit).Exec (put, u₁)
        [some (.store .SIO_TXFIFO (c.setWidth 32))] (putcAll s, u₁.push _ hroom) :=
      .single (.access .store (.push hroom))
    obtain ⟨ls₂, u₂, later⟩ := ih (u₁.push _ hroom)
    exact ⟨_, u₂, drained.trans (hready.trans (hput.trans later))⟩

/-- From wherever it is, the string can be put to its end. -/
theorem Putting.finishes (h : Putting s u p) :
    ∃ ls u', (attached uart Unit).Exec p ls (.done (), u') := by
  cases h with
  | @waiting put rest u' _ _ _ => exact putcAll_finishes rest u'
  | @ready put rest c u' _ _ _ room =>
    have hput : (attached uart Unit).Exec (.store .SIO_TXFIFO (c.setWidth 32) (putcAll rest), u')
        [some (.store .SIO_TXFIFO (c.setWidth 32))] (putcAll rest, u'.push _ room) :=
      .single (.access .store (.push room))
    obtain ⟨ls, u'', later⟩ := putcAll_finishes rest (u'.push _ room)
    exact ⟨_, u'', hput.trans later⟩

theorem Putting.sent (h : Putting s u p) : ∃ put rest, s = put ++ rest ∧ p.2.lost = u.lost ∧
    p.2.wire ++ p.2.tx = u.wire ++ u.tx ++ put ∧ (p.1 = .done () → rest = []) := by
  cases h with
  | @waiting put rest u' split lost sent =>
    refine ⟨put, rest, split, lost, sent, fun hdone => ?_⟩
    cases rest with
    | nil => rfl
    | cons c rest => cases hdone
  | @ready put rest c u' split lost sent _ => exact ⟨put, c :: rest, split, lost, sent, nofun⟩

end Putting

/-- **Nothing is lost.**  While `s` is put, what has been sent and what waits to be are what
was, and a first part of `s`, in order; at the end it is all of `s`. -/
theorem putc_loses_nothing (s : List (BitVec 8)) {u u' : Uart} {p : SioDriver Unit}
    {ls : List (Option SioAccess)} (run : (attached uart Unit).Exec (putcAll s, u) ls (p, u')) :
    (∃ put rest, s = put ++ rest ∧ u'.lost = u.lost ∧
      u'.wire ++ u'.tx = u.wire ++ u.tx ++ put ∧ (p = .done () → rest = [])) ∧
      ∃ ls' u'', (attached uart Unit).Exec (p, u') ls' (.done (), u'') := by
  have hstart : Putting s u (putcAll s, u) := .waiting rfl rfl (List.append_nil _).symm
  have hputting := hstart.exec run
  exact ⟨hputting.sent, hputting.finishes⟩

/-- A port with nothing in it. -/
def idle : Uart where
  tx := []
  wire := []
  lost := []
  rx := []
  taken := []
  starved := 0
  tx_le := Nat.zero_le 8
  rx_le := Nat.zero_le 15

theorem putc_loses_nothing_ok : ∃ ls u', (attached uart Unit).Exec (putcAll (chars "OK"), idle) ls
    (.done (), u') ∧ (∃ put rest, chars "OK" = put ++ rest ∧ u'.lost = idle.lost ∧
      u'.wire ++ u'.tx = idle.wire ++ idle.tx ++ put ∧
      ((.done () : SioDriver Unit) = .done () → rest = [])) ∧
    ∃ ls' u'', (attached uart Unit).Exec (.done (), u') ls' (.done (), u'') := by
  obtain ⟨ls, u', run⟩ := putcAll_finishes (chars "OK") idle
  exact ⟨ls, u', run, putc_loses_nothing (chars "OK") run⟩

/-! ## The status interrupt -/

/-- What is done about the errors of the line, when the status is `isr`. -/
inductive Told (isr : Word) : List SioAccess → Prop
  | quiet (h : isr &&& 4 = 0) : Told isr []
  | told (h : isr &&& 4 ≠ 0) (lsr : Word) :
      Told isr (.load .SIO_LSR lsr :: ((lineError lsr).toList.map .call ++ [.store .SIO_LSR 0xe]))

/-- The status is read, the errors of the line come first, and `reads` are left. -/
def Opened (ts : List SioAccess) : Prop :=
  ∃ isr told reads, Told isr told ∧ ts = .load .SIO_ISR isr :: (told ++ reads) ∧
    ∀ x ∈ reads, (∃ v, x = .load .SIO_ISR v) ∨ (∃ v, x = .load .SIO_RXFIFO v) ∨
      x = .store .SIO_ISR 7

/-- At a port that was `u`, what was received is still there, or has been taken. -/
structure Kept (u u' : Uart) : Prop where
  starved : u'.starved = u.starved
  received : u.taken ++ u.rx <+: u'.taken ++ u'.rx

/-- Where `func_80015748` is, at a port that was `u`, after the accesses `ts`. -/
inductive Serving (u : Uart) : SioDriver Unit × Uart → List SioAccess → Prop
  | start {u' : Uart} (kept : Kept u u') : Serving u (func_80015748, u') []
  | line {u' : Uart} {isr : Word} (kept : Kept u u') (error : isr &&& 4 ≠ 0) :
      Serving u (.load .SIO_LSR fun lsr => report lsr (.store .SIO_LSR 0xe drain), u')
        [.load .SIO_ISR isr]
  | report {u' : Uart} {isr lsr : Word} {text : String} (kept : Kept u u')
      (error : isr &&& 4 ≠ 0) (message : lineError lsr = some text) :
      Serving u (.call text (.store .SIO_LSR 0xe drain), u')
        [.load .SIO_ISR isr, .load .SIO_LSR lsr]
  | clear {u' : Uart} {isr lsr : Word} (kept : Kept u u') (error : isr &&& 4 ≠ 0) :
      Serving u (.store .SIO_LSR 0xe drain, u')
        (.load .SIO_ISR isr :: .load .SIO_LSR lsr :: (lineError lsr).toList.map .call)
  | drain {u' : Uart} {ts : List SioAccess} (kept : Kept u u') (opened : Opened ts) :
      Serving u (drain, u') ts
  | read {u' : Uart} {ts : List SioAccess} (kept : Kept u u') (opened : Opened ts)
      (some : u'.rx ≠ []) : Serving u (.load .SIO_RXFIFO fun _ => Sio.drain, u') ts
  | acknowledge {u' : Uart} {ts : List SioAccess} (kept : Kept u u') (opened : Opened ts)
      (dropped : u.taken ++ u.rx <+: u'.taken) : Serving u (.store .SIO_ISR 7 (.done ()), u') ts
  | done {u' : Uart} {ts : List SioAccess} (kept : Kept u u') (opened : Opened ts)
      (dropped : u.taken ++ u.rx <+: u'.taken) : Serving u (.done (), u') ts

section Serving

variable {u u' u'' : Uart} {p q : SioDriver Unit × Uart} {l : Option SioAccess}
  {ls : List (Option SioAccess)} {ts : List SioAccess} {x : SioAccess}

theorem Opened.append (h : Opened ts) (hx : (∃ v, x = .load .SIO_ISR v) ∨
    (∃ v, x = .load .SIO_RXFIFO v) ∨ x = .store .SIO_ISR 7) : Opened (ts ++ [x]) := by
  obtain ⟨isr, told, reads, htold, rfl, hreads⟩ := h
  refine ⟨isr, told, reads ++ [x], htold, by simp, fun y hy => ?_⟩
  rcases List.mem_append.mp hy with hy | hy
  · exact hreads y hy
  · rw [List.mem_singleton.mp hy]
    exact hx

theorem Uart.Moves.keeps (h : u'.Moves u'') (kept : Kept u u') :
    Kept u u'' ∧ u''.taken = u'.taken ∧ (u'.rx ≠ [] → u''.rx ≠ []) := by
  cases h with
  | shift h => exact ⟨⟨kept.starved, kept.received⟩, rfl, id⟩
  | @receive c h =>
    refine ⟨⟨kept.starved, ?_⟩, rfl, fun _ => List.append_ne_nil_of_right_ne_nil _ nofun⟩
    change _ <+: u'.taken ++ (u'.rx ++ [c])
    rw [← List.append_assoc]
    exact kept.received.trans (List.prefix_append _ _)

theorem Serving.move (h : Serving u p ts) (moved : p.2.Moves u'') : Serving u (p.1, u'') ts := by
  cases h with
  | start kept => exact .start (moved.keeps kept).1
  | line kept error => exact .line (moved.keeps kept).1 error
  | report kept error message => exact .report (moved.keeps kept).1 error message
  | clear kept error => exact .clear (moved.keeps kept).1 error
  | drain kept opened => exact .drain (moved.keeps kept).1 opened
  | read kept opened some =>
    obtain ⟨hkept, -, hsome⟩ := moved.keeps kept
    exact .read hkept opened (hsome some)
  | acknowledge kept opened dropped =>
    obtain ⟨hkept, htaken, -⟩ := moved.keeps kept
    exact .acknowledge hkept opened (htaken ▸ dropped)
  | done kept opened dropped =>
    obtain ⟨hkept, htaken, -⟩ := moved.keeps kept
    exact .done hkept opened (htaken ▸ dropped)

theorem Uart.pop_keeps {c : BitVec 8} {rest : List (BitVec 8)} (h : u'.rx = c :: rest)
    (kept : Kept u u') : Kept u (u'.pop c rest h) where
  starved := kept.starved
  received := by
    have hreceived := kept.received
    rw [h] at hreceived
    change _ <+: u'.taken ++ [c] ++ rest
    rwa [List.append_assoc, List.singleton_append]

theorem report_some {lsr : Word} {text : String} {k : SioDriver Unit}
    (h : lineError lsr = some text) : report lsr k = .call text k := by
  unfold report
  rw [h]

theorem report_none {lsr : Word} {k : SioDriver Unit} (h : lineError lsr = none) :
    report lsr k = k := by
  unfold report
  rw [h]

/-- After the message, if there is one, the errors are cleared. -/
theorem clear_shown {isr lsr : Word} {message : Option String} (kept : Kept u u')
    (error : isr &&& 4 ≠ 0) (h : lineError lsr = message) :
    Serving u (.store .SIO_LSR 0xe drain, u')
      (.load .SIO_ISR isr :: .load .SIO_LSR lsr :: message.toList.map .call) := by
  rw [← h]
  exact .clear kept error

theorem Serving.access {d : SioDriver Unit} (h : Serving u p ts) (next : Driver.Step p.1 x d)
    (took : p.2.Takes x u'') : Serving u (d, u'') (ts ++ [x]) := by
  cases h with
  | start kept =>
    cases next with
    | load isr =>
      cases took with
      | status _ _ =>
        dsimp only
        by_cases herror : isr &&& 4 ≠ 0
        · rw [if_pos herror]
          exact .line kept herror
        · rw [if_neg herror]
          exact .drain kept ⟨isr, [], [], .quiet (not_not.mp herror), rfl, nofun⟩
  | line kept error =>
    cases next with
    | load lsr =>
      cases took with
      | line _ =>
        dsimp only
        cases hmessage : lineError lsr with
        | some text =>
          rw [report_some hmessage]
          exact .report kept error hmessage
        | none =>
          have hclear := clear_shown kept error hmessage
          rw [report_none hmessage]
          exact hclear
  | @report u' isr lsr text kept error message =>
    cases next
    cases took with
    | call _ => exact clear_shown kept error message
  | @clear u' isr lsr kept error =>
    cases next
    cases took with
    | write _ _ => exact .drain kept ⟨isr, _, [], .told error lsr, by simp, nofun⟩
  | @drain u' ts kept opened =>
    cases next with
    | @again _ _ _ _ v hmore =>
      cases took with
      | status _ hrx =>
        refine .read kept (opened.append (.inl ⟨v, rfl⟩)) fun hnil => ?_
        rw [hnil] at hrx
        exact of_decide_eq_true hmore ((empty_iff v).mpr hrx)
    | @exit _ _ _ _ v hnone =>
      cases took with
      | status _ hrx =>
        have hlevel : level v 8 = 0 := (empty_iff v).mp (not_not.mp (of_decide_eq_false hnone))
        have hnil : u'.rx = [] := List.eq_nil_of_length_eq_zero (hrx.symm.trans hlevel)
        have hdropped := kept.received
        rw [hnil, List.append_nil] at hdropped
        exact .acknowledge kept (opened.append (.inl ⟨v, rfl⟩)) hdropped
  | read kept opened some =>
    cases next with
    | load v =>
      cases took with
      | pop h => exact .drain (Uart.pop_keeps h kept) (opened.append (.inr (.inl ⟨_, rfl⟩)))
      | starve h => exact absurd h some
  | acknowledge kept opened dropped =>
    cases next
    cases took with
    | write _ _ => exact .done kept (opened.append (.inr (.inr rfl))) dropped
  | done kept opened dropped => cases next

theorem Serving.exec (h : Serving u p ts) (run : (attached uart Unit).Exec p ls q) :
    Serving u q (ts ++ ls.reduceOption) := by
  induction run with
  | refl =>
    rw [List.reduceOption_nil, List.append_nil]
    exact h
  | snoc _ next ih =>
    rw [List.reduceOption_append, ← List.append_assoc]
    cases next with
    | access next took => exact ih.access next took
    | move moved =>
      rw [List.reduceOption_cons_of_none, List.reduceOption_nil, List.append_nil]
      exact ih.move moved

theorem Serving.outcome (h : Serving u p ts) : p.2.starved = u.starved ∧
    (p.1 = .done () → Opened ts ∧ u.taken ++ u.rx <+: p.2.taken) := by
  cases h with
  | done kept opened dropped => exact ⟨kept.starved, fun _ => ⟨opened, dropped⟩⟩
  | start kept | line kept _ | report kept _ _ | clear kept _ | drain kept _ | read kept _ _
  | acknowledge kept _ _ =>
    refine ⟨kept.starved, fun hdone => ?_⟩
    cases hdone

end Serving

/-- **The status interrupt.** -/
theorem status_drains {u u' : Uart} {p : SioDriver Unit} {ls : List (Option SioAccess)}
    (run : (attached uart Unit).Exec (func_80015748, u) ls (p, u')) :
    u'.starved = u.starved ∧
      (p = .done () → Opened ls.reduceOption ∧ u.taken ++ u.rx <+: u'.taken) := by
  have hstart : Serving u (func_80015748, u) [] := .start ⟨rfl, List.prefix_rfl⟩
  have hserving := hstart.exec run
  rw [List.nil_append] at hserving
  exact hserving.outcome

/-- A port that has received one byte. -/
def oneByte : Uart := idle.receive 0x41 (by decide)

theorem status_drains_one_byte : ∃ ls u',
    (attached uart Unit).Exec (func_80015748, oneByte) ls (.done (), u') ∧
      u'.starved = oneByte.starved ∧ ((.done () : SioDriver Unit) = .done () →
        Opened ls.reduceOption ∧ oneByte.taken ++ oneByte.rx <+: u'.taken) := by
  have hone : oneByte.Takes (.load .SIO_ISR 0x100) oneByte := .status rfl rfl
  have hpop : oneByte.Takes (.load .SIO_RXFIFO ((0x41 : BitVec 8).setWidth 32))
      (oneByte.pop 0x41 [] rfl) := .pop rfl
  have hnone : (oneByte.pop 0x41 [] rfl).Takes (.load .SIO_ISR 0) _ := .status rfl rfl
  have hclear : (oneByte.pop 0x41 [] rfl).Takes (.store .SIO_ISR 7) _ := .write 7 nofun
  have hload : Driver.Step func_80015748 (.load .SIO_ISR 0x100) _ := .load 0x100
  have hstatus : (attached uart Unit).step (func_80015748, oneByte) _ (drain, oneByte) :=
    .access hload hone
  have hmore : (attached uart Unit).step (drain, oneByte) _
      (.load .SIO_RXFIFO fun _ => drain, oneByte) := .access (.again rfl) hone
  have hread : (attached uart Unit).step (.load .SIO_RXFIFO fun _ => drain, oneByte) _
      (drain, oneByte.pop 0x41 [] rfl) := .access (.load _) hpop
  have hexit : (attached uart Unit).step (drain, oneByte.pop 0x41 [] rfl) _
      (.store .SIO_ISR 7 (.done ()), oneByte.pop 0x41 [] rfl) := .access (.exit rfl) hnone
  have hdone : (attached uart Unit).step (.store .SIO_ISR 7 (.done ()), oneByte.pop 0x41 [] rfl) _
      (.done (), oneByte.pop 0x41 [] rfl) := .access .store hclear
  have run := (((((Lts.Exec.refl _).snoc hstatus).snoc hmore).snoc hread).snoc hexit).snoc hdone
  exact ⟨_, _, run, status_drains run⟩

end EeKernel.Sio
