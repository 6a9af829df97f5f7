import EeKernel.Memory
import EeKernel.Lib.Driver

/-!
# `sio.c` and `deci2.c`: the debug ports

`func_80015700` and `func_80015748` drive the serial port, `func_80015838`
writes a string to the PIF, a character at a time and each one acknowledged, and
`func_8000FE18` does so with a message before it stops for good.  They are
`Driver`s of the registers they name.  A string is given by its characters, of
which the code takes those before the terminator.  `func_8000FEC8` looks up a
socket.
-/

namespace EeKernel.Sio

open EeKernel.Lib

/-! ## The serial port -/

inductive Reg
  | SIO_LSR
  | SIO_ISR
  | SIO_TXFIFO
  | SIO_RXFIFO
  deriving DecidableEq

/-- Code that drives the serial port; what it calls is `kprintf`. -/
abbrev SioDriver := Driver Reg Word String

/-- sio putc; `SIO_TXFIFO` takes a byte -/
def func_80015700 (c : BitVec 8) : SioDriver (BitVec 8) :=
  .poll .SIO_ISR (fun isr => isr &&& 0xf000 = 0x8000) [] <|
    .store .SIO_TXFIFO (c.setWidth 32) (.done c)

/-- The message about the errors in `lsr`, if there are any. -/
def lineError (lsr : Word) : Option String :=
  if lsr &&& 8 ≠ 0 then some "UART: Frame error."
  else if lsr &&& 4 ≠ 0 then some "UART: Parity error."
  else if lsr &&& 2 ≠ 0 then some "UART: Overrun error."
  else none

def report (lsr : Word) (k : SioDriver Unit) : SioDriver Unit :=
  match lineError lsr with
  | some text => .call text k
  | none => k

/-- `while (*SIO_ISR & 0xf00) { *SIO_RXFIFO; } *SIO_ISR = 7;` -/
def drain : SioDriver Unit :=
  .poll .SIO_ISR (fun isr => isr &&& 0xf00 ≠ 0) [.SIO_RXFIFO] (.store .SIO_ISR 7 (.done ()))

/-- sio status -/
def func_80015748 : SioDriver Unit :=
  .load .SIO_ISR fun isr =>
    if isr &&& 4 ≠ 0 then .load .SIO_LSR fun lsr => report lsr (.store .SIO_LSR 0xe drain)
    else drain

/-! ## The PIF -/

/-- The fields of `struct pif_reg` that are used. -/
inductive PifReg
  | com_send
  | unk20
  | unk2C
  | unk30
  deriving DecidableEq

abbrev PifDriver := Driver PifReg (BitVec 16) Empty

/-- PIF puts; a `char` is signed. -/
def func_80015838 : List (BitVec 8) → PifDriver Unit
  | [] => .done ()
  | c :: s =>
    if c = 0 then .done ()
    else
      .store .com_send (c.signExtend 16) <| .store .unk30 1 <|
        .poll .unk20 (fun v => v &&& 2 = 0) [] <| .store .unk2C 2 (func_80015838 s)

/-! ## The panic -/

/-- The characters of a string constant. -/
def chars (s : String) : List (BitVec 8) := s.toList.map fun c => BitVec.ofNat 8 c.toNat

/-- `struct d2_cause_string` -/
structure CauseString where
  id : Word
  string : String

def deci2_err_cause : List CauseString :=
  [{ id := 1, string := "MAN" }, { id := 2, string := "SIF" }, { id := 3, string := "DCMP" },
    { id := 4, string := "RLY" }, { id := 5, string := "KTTY" }, { id := 6, string := "DBG" }]

/-- `for (i = 0; i < 6; i++) if (cause == deci2_err_cause[i].id) break;` -/
def causeIndex (cause : Word) : Nat := deci2_err_cause.findIdx fun e => cause = e.id

/-- `deci2_err_cause[i].string`; `beyond` is what is found behind the table. -/
def causeString (beyond : List (BitVec 8)) (i : Nat) : List (BitVec 8) :=
  match deci2_err_cause[i]? with
  | some e => chars e.string
  | none => beyond

/-- Strings put one after the other. -/
def putsAll : List (List (BitVec 8)) → PifDriver Unit
  | [] => .done ()
  | s :: rest => (func_80015838 s).bind fun _ => putsAll rest

/-- What is put about a cause. -/
def panicStrings (beyond : List (BitVec 8)) (cause : Word) (msg : List (BitVec 8)) :
    List (List (BitVec 8)) :=
  [chars "\n# EE DECI2 Panic!!!\n\t", causeString beyond (causeIndex cause), chars ": ", msg,
    chars "\n"]

/-- deci2_panic -/
def func_8000FE18 (beyond : List (BitVec 8)) (cause : Word) (msg : List (BitVec 8)) :
    PifDriver Unit :=
  (putsAll (panicStrings beyond cause msg)).bind fun _ => .hang

/-! ## The sockets -/

def D_80028BB0 : Word := 0x80028BB0

/-- `D_80028BB0[sock].proto`: the lower half of the first of three words. -/
def proto (m : Mem) (sock : Word) : BitVec 16 := (m.read (D_80028BB0 + 12 * sock)).setWidth 16

def func_8000FEC8 (m : Mem) (sock : Word) : Word :=
  if sock.toInt ≤ 0 ∨ sock.toInt > 16 then 0 else if proto m sock ≠ 0 then 1 else 0

/-- The answer is read off the table, but for socket 16, which lies behind it. -/
theorem func_8000FEC8_table_iff (sock : Word) :
    (∀ m m' : Mem, (∀ k < 48, m.read (D_80028BB0 + 4 * BitVec.ofNat 32 k) =
        m'.read (D_80028BB0 + 4 * BitVec.ofNat 32 k)) →
      func_8000FEC8 m sock = func_8000FEC8 m' sock) ↔ sock ≠ 16 := by
  have hfour : (4 : Word).toNat = 4 := rfl
  constructor
  · rintro h rfl
    have hbehind : ∀ k < 48, D_80028BB0 + 4 * BitVec.ofNat 32 k ≠ D_80028BB0 + 12 * 16 := by
      intro k hk heq
      have hnat := congrArg BitVec.toNat ((BitVec.add_right_inj _).mp heq)
      have hlast : ((12 : Word) * 16).toNat = 192 := rfl
      rw [BitVec.toNat_mul, BitVec.toNat_ofNat, hfour, hlast] at hnat
      omega
    have hsame := h (fun _ => 0) (Mem.write (fun _ => 0) (D_80028BB0 + 12 * 16) 1) fun k hk =>
      (Mem.read_write_of_ne _ _ (hbehind k hk)).symm
    cases hsame
  · intro hsock m m' htable
    unfold func_8000FEC8
    by_cases hout : sock.toInt ≤ 0 ∨ sock.toInt > 16
    · rw [if_pos hout, if_pos hout]
    · have hint : sock.toInt = sock.toNat := by
        rw [BitVec.toInt_eq_toNat_cond] at hout ⊢
        split at hout <;> omega
      have hne : sock.toNat ≠ 16 := fun h => hsock (BitVec.eq_of_toNat_eq h)
      have hword : (12 : Word) * sock = 4 * BitVec.ofNat 32 (3 * sock.toNat) := by
        have htwelve : (12 : Word).toNat = 12 := rfl
        apply BitVec.eq_of_toNat_eq
        rw [BitVec.toNat_mul, BitVec.toNat_mul, BitVec.toNat_ofNat, hfour, htwelve]
        omega
      have hproto : proto m sock = proto m' sock := by
        unfold proto
        rw [hword, htable (3 * sock.toNat) (by omega)]
      rw [if_neg hout, if_neg hout, hproto]

end EeKernel.Sio
