import LinuxKernel.Lib.Index
import LinuxKernel.V012.Math.Compare
import LinuxKernel.V012.Math.Div
import LinuxKernel.V012.Math.Mul

/-!
# LinuxKernel.V012.Math.Emulate

**The arithmetic of `do_emu`**, `kernel/math/math_emulate.c`: the register and memory forms of the
bytes D8, DA, DC and DE.

- `Emu` is what `do_emu` works on. `isSet` tells whether `tmp` has a value, `garbage` whether it has
  been read without one.
- `doEmu` is written as the three switches; the other bytes (loads, stores, control) are left out.
- `Instr` and `Documented` are the instructions as the processor's manual has them.
- `emulates_iff` says which of them come out as documented.
-/

namespace LinuxKernel.V012.Math

open TempReal

/-! ### The registers -/

/-- The part of `I387` that arithmetic uses. -/
structure Fpu where
  cwd : BitVec 32
  swd : BitVec 32
  stSpace : Fin 8 → TempReal

namespace Fpu

def top (f : Fpu) : Nat := (f.swd >>> 11).toNat % 8

/-- `__st(i)` -/
def st (f : Fpu) (i : Nat) : Fin 8 := Fin.ofNat 8 (i + (f.swd >>> 11).toNat)

/-- `PST(i)` -/
def pst (f : Fpu) (i : Nat) : TempReal := f.stSpace (f.st i)

def setSt (f : Fpu) (i : Nat) (x : TempReal) : Fpu :=
  { f with stSpace := Function.update f.stSpace (f.st i) x }

def setSwd (f : Fpu) (swd : BitVec 32) : Fpu := { f with swd := swd }

def fpop (f : Fpu) : Fpu :=
  let tmp := f.swd &&& 0xffffc7ff
  f.setSwd (((f.swd + 0x800) &&& 0x3800) ||| tmp)

/-- The bit that sums up the exceptions, at the start of `do_emu`. -/
def summary (f : Fpu) : Fpu :=
  f.setSwd (if f.cwd &&& f.swd &&& 0x3f ≠ 0 then f.swd ||| 0x8000 else f.swd &&& 0x7fff)

end Fpu

/-! ### The routines -/

/-- `fmul` returns before it has written its result. -/
def MulFails (x y : TempReal) : Prop := (0x7fff : ℤ) < (x.exp : ℤ) + y.exp - 16383 + 1

/-- The exponent of the quotient that `fdiv` comes to. -/
def quotientExp (x y : TempReal) : Nat :=
  let b := shiftDivisor ⟨0, 0, y.a, y.b⟩
  let tmp := div64 ⟨0, 0, x.a, x.b⟩ b.2 Quad.zero
  if tmp.isSet then
    (raise Quad.isNeg Quad.double (((x.exp : ℤ) - y.exp + 16383).toNat + b.1) tmp).1
  else 0

/-- `fdiv` returns before it has written its result. -/
def DivFails (x y : TempReal) : Prop :=
  (y.a = 0 ∧ y.b = 0) ∨ (0 ≤ (x.exp : ℤ) - y.exp + 16383 ∧ 0x7fff < quotientExp x y)

instance (x y : TempReal) : Decidable (MulFails x y) := inferInstanceAs (Decidable (_ < _))
instance (x y : TempReal) : Decidable (DivFails x y) := inferInstanceAs (Decidable (_ ∨ _))

/-! ### The source -/

structure Emu where
  fpu : Fpu
  tmp : TempReal
  isSet : Bool
  garbage : Bool

namespace Emu

def pst (e : Emu) (i : Nat) : TempReal := e.fpu.pst i

/-- `tmp` is read. -/
def useTmp (e : Emu) : Emu := { e with garbage := e.garbage || !e.isSet }

/-- `tmp` is written. -/
def setTmp (e : Emu) (x : TempReal) : Emu := { e with tmp := x, isSet := true }

/-- `tmp.exponent ^= 0x8000;` -/
def signTmp (e : Emu) : Emu := { e.useTmp with tmp := changeSign e.tmp }

/-- `real_to_real(&tmp,&ST(i));` -/
def store (e : Emu) (i : Nat) : Emu := { e.useTmp with fpu := e.fpu.setSt i e.tmp }

/-- `ST(i).exponent ^= 0x8000;` -/
def signSt (e : Emu) (i : Nat) : Emu := { e with fpu := e.fpu.setSt i (changeSign (e.pst i)) }

/-- `fadd(x,y,&tmp);` -/
def fadd (e : Emu) (x y : TempReal) : Emu := e.setTmp (Math.fadd x y)

/-- A routine with its result in `tmp`, unless it fails. -/
def routine (e : Emu) (r : TempReal → BitVec 32 × TempReal) (fails : Bool) : Emu :=
  { e with fpu := e.fpu.setSwd (r e.tmp).1, tmp := (r e.tmp).2, isSet := e.isSet || !fails }

/-- `fmul(x,y,&tmp);` -/
def fmul (e : Emu) (x y : TempReal) : Emu :=
  e.routine (Math.fmul e.fpu.swd x y) (MulFails x y)

/-- `fdiv(x,y,&tmp);` -/
def fdiv (e : Emu) (x y : TempReal) : Emu :=
  e.routine (Math.fdiv e.fpu.swd x y) (DivFails x y)

def fcom (e : Emu) (x y : TempReal) : Emu :=
  { e with fpu := e.fpu.setSwd (Math.fcom e.fpu.swd x y) }

def fpop (e : Emu) : Emu := { e with fpu := e.fpu.fpop }

/-- At the first switch. -/
def start (f : Fpu) (tmp : TempReal) : Emu :=
  { fpu := f.summary, tmp := tmp, isSet := false, garbage := false }

end Emu

/-- `switch (code >> 3)`, with `i` for `code & 7`. -/
def registerForm (op : Nat) : Option (Nat → Emu → Emu) :=
  match op with
  | 0x18 => some fun i e => (e.fadd (e.pst 0) (e.pst i)).store 0
  | 0x19 => some fun i e => (e.fmul (e.pst 0) (e.pst i)).store 0
  | 0x1a => some fun i e => (e.useTmp.fcom (e.pst i) e.tmp).store 0
  | 0x1b => some fun i e => ((e.useTmp.fcom (e.pst i) e.tmp).store 0).fpop
  | 0x1c => some fun i e =>
      let e := (e.setTmp (e.pst i)).signTmp
      (e.useTmp.fadd (e.pst 0) e.tmp).store 0
  | 0x1d => some fun i e =>
      let e := e.signSt 0
      (e.fadd (e.pst 0) (e.pst i)).store 0
  | 0x1e => some fun i e => (e.fdiv (e.pst 0) (e.pst i)).store 0
  | 0x1f => some fun i e => (e.fdiv (e.pst i) (e.pst 0)).store 0
  | 0x98 => some fun i e => (e.fadd (e.pst 0) (e.pst i)).store i
  | 0x99 => some fun i e => (e.fmul (e.pst 0) (e.pst i)).store i
  | 0x9a => some fun i e => e.fcom (e.pst i) (e.pst 0)
  | 0x9b => some fun i e => (e.fcom (e.pst i) (e.pst 0)).fpop
  | 0x9c => some fun i e =>
      let e := e.signSt i
      (e.fadd (e.pst 0) (e.pst i)).store i
  | 0x9d => some fun i e =>
      let e := (e.setTmp (e.pst 0)).signTmp
      (e.useTmp.fadd (e.pst i) e.tmp).store i
  | 0x9e => some fun i e => (e.fdiv (e.pst 0) (e.pst i)).store i
  | 0x9f => some fun i e => (e.fdiv (e.pst i) (e.pst 0)).store i
  | 0xd8 => some fun i e => ((e.fadd (e.pst i) (e.pst 0)).store i).fpop
  | 0xd9 => some fun i e => ((e.fmul (e.pst i) (e.pst 0)).store i).fpop
  | 0xda => some fun i e => (e.fcom (e.pst i) (e.pst 0)).fpop
  | 0xdc => some fun i e =>
      let e := e.signSt i
      ((e.fadd (e.pst 0) (e.pst i)).store i).fpop
  | 0xdd => some fun i e =>
      let e := (e.setTmp (e.pst 0)).signTmp
      ((e.useTmp.fadd (e.pst i) e.tmp).store i).fpop
  | 0xde => some fun i e => ((e.fdiv (e.pst 0) (e.pst i)).store i).fpop
  | 0xdf => some fun i e => ((e.fdiv (e.pst i) (e.pst 0)).store i).fpop
  | _ => none

/-- `switch (code >> 9)`, with the bytes at the address. -/
def load (byte : Nat) (p : Wide) (e : Emu) : Emu :=
  match byte with
  | 0 => e.setTmp (shortToTemp p.a)
  | 1 => e.setTmp (getLongInt p.a)
  | 2 => e.setTmp (longToTemp p)
  | 4 => e.setTmp (getShortInt (p.a.setWidth 16))
  | _ => e

/-- `switch ((code>>3) & 0x27)` -/
def memoryForm (op : Nat) (e : Emu) : Option Emu :=
  match op with
  | 0 => some ((e.useTmp.fadd e.tmp (e.pst 0)).store 0)
  | 1 => some ((e.useTmp.fmul e.tmp (e.pst 0)).store 0)
  | 2 => some (e.useTmp.fcom e.tmp (e.pst 0))
  | 3 => some (e.useTmp.fcom e.tmp (e.pst 0)).fpop
  | 4 =>
      let e := e.signTmp
      some ((e.useTmp.fadd e.tmp (e.pst 0)).store 0)
  | 5 =>
      let e := e.signSt 0
      some ((e.useTmp.fadd e.tmp (e.pst 0)).store 0)
  | 6 => some ((e.useTmp.fdiv (e.pst 0) e.tmp).store 0)
  | 7 => some ((e.useTmp.fdiv e.tmp (e.pst 0)).store 0)
  | _ => none

/-- `do_emu` on the 11 bits of `code`; `p` is at the address of the operand, `tmp` what the stack
happens to hold. The bytes D9, DB, DD and DF and the register forms of DA are left out. -/
def doEmu (code : Nat) (p : Wide) (f : Fpu) (tmp : TempReal) : Option Emu :=
  let e := Emu.start f tmp
  if code = 0x6d9 then some (e.fcom (e.pst 1) (e.pst 0)).fpop.fpop
  else if code / 8 &&& 0x20 ≠ 0 ∨ code / 8 &&& 0xf8 = 0x58 then none
  else
    match registerForm (code / 8) with
    | some run => some (run (code % 8) e)
    | none => memoryForm (code / 8 &&& 0x27) (load (code / 0x200) p e)

/-! ### The manual -/

inductive Arith
  | add | mul | sub | subr | div | divr
  deriving DecidableEq

/-- The routine on the destination and the source. -/
def Arith.run (a : Arith) (swd : BitVec 32) (dest source result : TempReal) :
    BitVec 32 × TempReal :=
  match a with
  | add => (swd, fadd dest source)
  | mul => fmul swd dest source result
  | sub => (swd, fadd dest (changeSign source))
  | subr => (swd, fadd source (changeSign dest))
  | div => fdiv swd dest source result
  | divr => fdiv swd source dest result

/-- Types in memory, in the order of the bytes D8, DA, DC and DE. -/
inductive MemType
  | shortReal | longInt | longReal | shortInt
  deriving DecidableEq

inductive Source
  | reg (i : Fin 8)
  | mem (t : MemType) (mod : Fin 3) (rm : Fin 8)

inductive Instr
  /-- `ST(0)` and the operand: D8 and the memory forms. -/
  | arith (a : Arith) (s : Source)
  /-- `ST(i)` and `ST(0)`: DC, and DE which pops. -/
  | arithSt (a : Arith) (pop : Bool) (i : Fin 8)
  /-- `ST(0)` against the operand: D8 and the memory forms. -/
  | com (pop : Bool) (s : Source)
  /-- `ST(0)` against `ST(i)`: DC D0, DC D8. -/
  | comDc (pop : Bool) (i : Fin 8)
  /-- The same: DE D0. -/
  | comDe (i : Fin 8)
  | compp

/-- The field of the instruction that says what is done. -/
def Arith.field : Arith → Nat
  | add => 0 | mul => 1 | sub => 4 | subr => 5 | div => 6 | divr => 7

/-- In DC and DE the two directions change places. -/
def Arith.fieldSt : Arith → Nat
  | add => 0 | mul => 1 | subr => 4 | sub => 5 | divr => 6 | div => 7

def MemType.byte : MemType → Nat
  | shortReal => 0 | longInt => 1 | longReal => 2 | shortInt => 3

def comField (pop : Bool) : Nat := if pop then 3 else 2

def Source.code (field : Nat) : Source → Nat
  | reg i => 8 * (0x18 + field) + i
  | mem t mod rm => 8 * (0x40 * t.byte + 8 * mod + field) + rm

def Instr.code : Instr → Nat
  | arith a s => s.code a.field
  | arithSt a pop i => 8 * ((if pop then 0xd8 else 0x98) + a.fieldSt) + i
  | com pop s => s.code (comField pop)
  | comDc pop i => 8 * (0x98 + comField pop) + i
  | comDe i => 8 * 0xda + i
  | compp => 0x6d9

def Source.value (f : Fpu) (p : Wide) : Source → TempReal
  | reg i => f.pst i
  | mem .shortReal _ _ => shortToTemp p.a
  | mem .longInt _ _ => getLongInt p.a
  | mem .longReal _ _ => longToTemp p
  | mem .shortInt _ _ => getShortInt (p.a.setWidth 16)

/-- `n` registers taken off the stack. -/
structure Pops (n : Nat) (f f' : Fpu) : Prop where
  cwd : f'.cwd = f.cwd
  stSpace : f'.stSpace = f.stSpace
  top : f'.top = (f.top + n) % 8
  rest : ∀ i < 32, (i < 11 ∨ 14 ≤ i) → f'.swd.getLsbD i = f.swd.getLsbD i

/-- The destination gets what the routine computes, whatever was there before. -/
def Computes (a : Arith) (f : Fpu) (dest : Nat) (source : TempReal) (f' : Fpu) : Prop :=
  ∃ swd v, (∀ result, a.run f.swd (f.pst dest) source result = (swd, v)) ∧
    f' = (f.setSt dest v).setSwd swd

/-- What becomes of the registers. -/
def Documented (ins : Instr) (p : Wide) (f f' : Fpu) : Prop :=
  match ins with
  | .arith a s => Computes a f 0 (s.value f p) f'
  | .arithSt a pop i => ∃ g, Computes a f i (f.pst 0) g ∧ Pops pop.toNat g f'
  | .com pop s => Pops pop.toNat (f.setSwd (fcom f.swd (s.value f p) (f.pst 0))) f'
  | .comDc pop i => Pops pop.toNat (f.setSwd (fcom f.swd (f.pst i) (f.pst 0))) f'
  | .comDe i => Pops 1 (f.setSwd (fcom f.swd (f.pst i) (f.pst 0))) f'
  | .compp => Pops 2 (f.setSwd (fcom f.swd (f.pst 1) (f.pst 0))) f'

/-- As documented, and without a look at what `tmp` happened to hold. -/
def Emulates (ins : Instr) (p : Wide) (f : Fpu) (tmp : TempReal) : Prop :=
  ∃ e, doEmu ins.code p f tmp = some e ∧ e.garbage = false ∧ Documented ins p f.summary e.fpu

/-! ### The condition -/

/-- The routine has no result to give. -/
def Arith.Fails (a : Arith) (dest source : TempReal) : Prop :=
  match a with
  | mul => MulFails dest source
  | div => DivFails dest source
  | divr => DivFails source dest
  | _ => False

/-- `ST(0)` is both operands of `fsubr`, and more than the two bits that `fadd` drops. -/
def Arith.Twice (a : Arith) (i : Fin 8) (x : TempReal) : Prop := a = .subr ∧ i = 0 ∧ 4 ≤ x.m

def Good (ins : Instr) (p : Wide) (f : Fpu) : Prop :=
  match ins with
  | .arith a (.reg i) => ¬ a.Fails (f.pst 0) (f.pst i) ∧ ¬ a.Twice i (f.pst 0)
  | .arith a (.mem t mod rm) =>
      t ≠ .shortInt ∧ ¬ a.Fails (f.pst 0) (Source.value f p (.mem t mod rm))
  | .arithSt a _ i => ¬ a.Fails (f.pst i) (f.pst 0) ∧ ¬ a.Twice i (f.pst 0)
  | .com _ (.reg _) => False
  | .com _ (.mem t _ _) => t ≠ .shortInt
  | .comDc _ _ | .comDe _ | .compp => True

/-! ### The stack -/

namespace Fpu

variable {f g h : Fpu} {i j n k : Nat} {x : TempReal} {swd : BitVec 32}

theorem st_eq (f : Fpu) (i : Nat) : f.st i = Fin.ofNat 8 (i + f.top) := by
  refine Fin.ext ?_
  unfold st top
  rw [Fin.val_ofNat, Fin.val_ofNat, Nat.add_mod_mod]

theorem st_congr (h : g.top = f.top) (i : Nat) : g.st i = f.st i := by
  rw [st_eq, st_eq, h]

theorem st_inj (hi : i < 8) (hj : j < 8) : f.st i = f.st j ↔ i = j := by
  rw [st_eq, st_eq, Fin.ext_iff, Fin.val_ofNat, Fin.val_ofNat]
  omega

theorem pst_setSt_self : (f.setSt i x).pst i = x := Function.update_self ..

theorem pst_setSt_of_ne (hi : i < 8) (hj : j < 8) (hne : j ≠ i) :
    (f.setSt i x).pst j = f.pst j :=
  Function.update_of_ne (fun h => hne ((st_inj hj hi).mp h)) ..

theorem setSt_setSt {y : TempReal} : (f.setSt i x).setSt i y = f.setSt i y := by
  unfold setSt
  rw [Fpu.mk.injEq]
  exact ⟨rfl, rfl, Function.update_idem ..⟩

theorem bit_top {s t : BitVec 32} (h : ∀ i, 11 ≤ i → i < 14 → s.getLsbD i = t.getLsbD i) :
    (s >>> 11).toNat % 8 = (t >>> 11).toNat % 8 := by
  refine Nat.eq_of_testBit_eq fun i => ?_
  rw [show 8 = 2 ^ 3 from rfl, Nat.testBit_mod_two_pow, Nat.testBit_mod_two_pow,
    BitVec.testBit_toNat, BitVec.testBit_toNat, BitVec.getLsbD_ushiftRight,
    BitVec.getLsbD_ushiftRight]
  by_cases hi : i < 3
  · rw [h (11 + i) (by omega) (by omega)]
  · simp [hi]

theorem summary_top (f : Fpu) : f.summary.top = f.top := by
  have hmask : ∀ i < 14, 11 ≤ i → (0x8000 : BitVec 32).getLsbD i = false ∧
      (0x7fff : BitVec 32).getLsbD i = true := by decide
  unfold summary top setSwd
  refine bit_top fun i h11 h14 => ?_
  dsimp only
  split
  · rw [BitVec.getLsbD_or, (hmask i h14 h11).1, Bool.or_false]
  · rw [BitVec.getLsbD_and, (hmask i h14 h11).2, Bool.and_true]

theorem summary_pst (f : Fpu) (i : Nat) : f.summary.pst i = f.pst i := by
  unfold pst
  rw [st_congr f.summary_top]
  rfl

theorem fpop_pops (f : Fpu) : Pops 1 f f.fpop where
  cwd := rfl
  stSpace := rfl
  top := by
    have hsum : ((f.swd + 0x800) &&& 0x3800).toNat =
        (f.swd + 0x800).toNat / 2 ^ 11 % 2 ^ 3 * 2 ^ 11 := Fields.toNat_and_field rfl
    have hmask : ∀ i < 14, 11 ≤ i → (0xffffc7ff : BitVec 32).getLsbD i = false := by decide
    have htop : f.fpop.top = ((f.swd + 0x800 &&& 0x3800) >>> 11).toNat % 8 := by
      unfold fpop top setSwd
      refine bit_top fun i h11 h14 => ?_
      rw [BitVec.getLsbD_or, BitVec.getLsbD_and (x := f.swd), hmask i h14 h11, Bool.and_false,
        Bool.or_false]
    rw [htop, Fields.toNat_shr, hsum, BitVec.toNat_add]
    unfold top
    rw [Fields.toNat_shr, show (0x800 : BitVec 32).toNat = 2 ^ 11 from rfl]
    omega
  rest i hi hrange := by
    have hmask : ∀ i < 32, (i < 11 ∨ 14 ≤ i) → (0x3800 : BitVec 32).getLsbD i = false ∧
        (0xffffc7ff : BitVec 32).getLsbD i = true := by decide
    obtain ⟨hlow, hhigh⟩ := hmask i hi hrange
    unfold fpop setSwd
    rw [BitVec.getLsbD_or, BitVec.getLsbD_and, BitVec.getLsbD_and, hlow, hhigh, Bool.and_false,
      Bool.false_or, Bool.and_true]

end Fpu

theorem Pops.refl (f : Fpu) : Pops 0 f f :=
  ⟨rfl, rfl, (Nat.mod_eq_of_lt (Nat.mod_lt _ (by decide))).symm, fun _ _ _ => rfl⟩

theorem Pops.trans {f g h : Fpu} {n k : Nat} (hg : Pops n f g) (hh : Pops k g h) :
    Pops (n + k) f h where
  cwd := hh.cwd.trans hg.cwd
  stSpace := hh.stSpace.trans hg.stSpace
  top := by
    rw [hh.top, hg.top]
    omega
  rest i hi hrange := (hh.rest i hi hrange).trans (hg.rest i hi hrange)

/-! ### The sum of a number and itself -/

theorem changeSign_toNat (x : TempReal) :
    (changeSign x).exponent.toNat = (x.exponent.toNat + 2 ^ 15) % 2 ^ 16 := by
  have hx := x.exp_lt
  rw [changeSign_eq, exponent_toNat x]
  unfold TempReal.of
  dsimp only
  rw [Exponent.make_toNat hx]
  cases x.negative with
  | false => simp only [Bool.not_false, if_true, Bool.false_eq_true, if_false]; omega
  | true => simp only [Bool.not_true, if_true, Bool.false_eq_true, if_false]; omega

theorem signify_toNat (x : TempReal) : (signify x).toWide.toNat =
    if 2 ^ 15 ≤ (x.exponent.toNat + 2) % 2 ^ 16 then (2 ^ 64 - x.m / 4) % 2 ^ 64 else x.m / 4 := by
  have hshift : (x.toWide.shr 2).toNat = x.m / 4 := Wide.shr_toNat (by decide) x.toWide
  have hmsb : (x.exponent + 2).msb = decide (2 ^ 15 ≤ (x.exponent.toNat + 2) % 2 ^ 16) := by
    rw [BitVec.msb_eq_decide, BitVec.toNat_add]
    rfl
  unfold signify
  dsimp only
  rw [hmsb]
  by_cases h : 2 ^ 15 ≤ (x.exponent.toNat + 2) % 2 ^ 16
  · rw [if_pos h, if_pos (decide_eq_true h), Wide.neg_toNat, hshift]
  · rw [if_neg h, if_neg (by rw [decide_eq_true_iff]; exact h), hshift]

theorem unsignify_zero {a : TempReal} : unsignify a = ⟨⟨0, 0⟩, 0⟩ ↔ a.toWide.toNat = 0 := by
  rw [Wide.toNat_eq_zero]
  have hnormal {b : TempReal} (hb : 0 < b.m) : normal b ≠ ⟨⟨0, 0⟩, 0⟩ := by
    intro h
    obtain ⟨k, _, hk, _⟩ := normal_spec hb
    rw [h] at hk
    exact absurd hk (Nat.ne_of_lt (Nat.mul_pos hb (Nat.two_pow_pos k)))
  unfold unsignify
  refine ⟨fun h => ?_, fun h => ?_⟩
  · by_contra hne
    have hpos : 0 < a.toWide.toNat := Nat.pos_of_ne_zero (mt Wide.toNat_eq_zero.mp hne)
    have hlt := a.toWide.toNat_lt
    rw [if_neg hne] at h
    dsimp only at h
    by_cases hneg : a.toWide.isNeg = true
    · rw [if_pos hneg] at h
      refine absurd h (hnormal ?_)
      unfold m
      dsimp only
      rw [Wide.neg_toNat]
      omega
    · rw [if_neg hneg] at h
      exact absurd h (hnormal hpos)
  · rw [if_pos h]
    exact TempReal.ext h.1 h.2 rfl

theorem fadd_of_exp_eq {x y : TempReal} (h : x.exp = y.exp) : fadd x y =
    unsignify ((signify y).setWide ((signify y).toWide.add (signify x).toWide)) := by
  have halign : align 0 x.toWide = x.toWide :=
    Wide.eq_of_toNat (by rw [align_toNat (by decide), pow_zero, Nat.div_one])
  unfold fadd
  rw [if_neg (by omega), h, Nat.sub_self]
  unfold addFrom
  rw [if_neg (by decide), halign]
  rfl

/-- A number and its opposite. -/
theorem fadd_changeSign (x : TempReal) : fadd x (changeSign x) = ⟨⟨0, 0⟩, 0⟩ := by
  have hexp : x.exp = (changeSign x).exp := by
    rw [exp_eq, exp_eq, changeSign_toNat]
    omega
  have hm : (changeSign x).m = x.m := rfl
  have hlt := x.m_lt
  have he := x.exponent.isLt
  rw [fadd_of_exp_eq hexp, unsignify_zero, setWide_toWide, Wide.add_toNat, signify_toNat,
    signify_toNat, hm, changeSign_toNat]
  split
  · rw [if_neg (by omega)]
    omega
  · rw [if_pos (by omega)]
    omega

/-- Doubled, a number vanishes only if its significand is in the two bits that are dropped. -/
theorem fadd_self (x : TempReal) : fadd x x = ⟨⟨0, 0⟩, 0⟩ ↔ x.m < 4 := by
  have hlt := x.m_lt
  rw [fadd_of_exp_eq rfl, unsignify_zero, setWide_toWide, Wide.add_toNat, signify_toNat]
  split
  · omega
  · omega

/-! ### The routines -/

variable {x y d s : TempReal} {swd : BitVec 32} {a : Arith}

theorem fmul_of_fails (swd : BitVec 32) (h : MulFails x y) (r : TempReal) :
    fmul swd x y r = (setOE swd, r) := by
  unfold MulFails at h
  unfold fmul
  dsimp only
  rw [if_neg (by omega), if_pos h]

theorem fmul_of_not (swd : BitVec 32) (h : ¬ MulFails x y) :
    ∃ v, ∀ r, fmul swd x y r = (swd, v) := by
  unfold MulFails at h
  unfold fmul
  dsimp only
  by_cases hneg : (x.exp : ℤ) + y.exp - 16383 + 1 < 0
  · exact ⟨_, fun _ => if_pos hneg⟩
  · exact ⟨_, fun _ => (if_neg hneg).trans (if_neg h)⟩

theorem mulFails_comm : MulFails x y ↔ MulFails y x := by
  unfold MulFails
  omega

theorem fmul_comm (swd : BitVec 32) (x y r : TempReal) : fmul swd x y r = fmul swd y x r := by
  have hprod : mul64 x.toWide y.toWide = mul64 y.toWide x.toWide := by
    refine Quad.eq_of_toNat ?_
    rw [mul64_toNat, mul64_toNat, Nat.mul_comm]
  unfold fmul
  rw [BitVec.xor_comm, add_comm (x.exp : ℤ), hprod]

theorem putQuotient_of_gt {i : Nat} {sign : BitVec 16} {tmp : Quad}
    (h : 0x7fff < if tmp.isSet then (raise Quad.isNeg Quad.double i tmp).1 else 0) :
    ∃ swd', ∀ r, putQuotient swd i sign tmp r = (swd', r) := by
  unfold putQuotient
  dsimp only
  by_cases hset : tmp.isSet = true
  · rw [if_pos hset] at h
    rw [if_pos hset]
    exact ⟨_, fun _ => if_pos h⟩
  · rw [if_neg hset] at h
    exact absurd h (by decide)

theorem putQuotient_of_not {i : Nat} {sign : BitVec 16} {tmp : Quad}
    (h : ¬ 0x7fff < if tmp.isSet then (raise Quad.isNeg Quad.double i tmp).1 else 0) :
    ∃ swd' v, (∀ r, putQuotient swd i sign tmp r = (swd', v)) ∧ swd' >>> 11 = swd >>> 11 := by
  have hDE (swd : BitVec 32) : setDE swd >>> 11 = swd >>> 11 := by
    rw [setDE, BitVec.ushiftRight_or_distrib, show (2 : BitVec 32) >>> 11 = 0#32 from rfl,
      BitVec.or_zero]
  have hPE (swd : BitVec 32) : setPE swd >>> 11 = swd >>> 11 := by
    rw [setPE, BitVec.ushiftRight_or_distrib, show (32 : BitVec 32) >>> 11 = 0#32 from rfl,
      BitVec.or_zero]
  have hwritten (p : Nat × Quad) (swd₀ : BitVec 32) (h₀ : swd₀ >>> 11 = swd >>> 11)
      (hle : ¬ 0x7fff < p.1) : ∃ swd' v, (∀ r : TempReal, (if 0x7fff < p.1 then (setOE swd₀, r)
        else (if p.2.c0 ≠ 0 ∨ p.2.c1 ≠ 0 then setPE swd₀ else swd₀,
          (⟨⟨p.2.c2, p.2.c3⟩, BitVec.ofNat 16 p.1 ||| sign⟩ : TempReal))) = (swd', v)) ∧
        swd' >>> 11 = swd >>> 11 := by
    refine ⟨_, _, fun r => if_neg hle, ?_⟩
    split
    · rw [hPE, h₀]
    · exact h₀
  unfold putQuotient
  dsimp only
  by_cases hset : tmp.isSet = true
  · rw [if_pos hset] at h
    rw [if_pos hset]
    refine hwritten _ _ ?_ h
    split
    · exact hDE swd
    · rfl
  · rw [if_neg hset] at h
    rw [if_neg hset]
    refine hwritten (0, tmp) _ ?_ h
    rw [if_neg fun hand => hset hand.1]

theorem fdiv_of_fails (swd : BitVec 32) (h : DivFails x y) :
    ∃ swd', ∀ r, fdiv swd x y r = (swd', r) := by
  unfold fdiv
  dsimp only
  by_cases hzero : y.a = 0 ∧ y.b = 0
  · exact ⟨_, fun _ => if_pos hzero⟩
  · obtain ⟨hexp, hgt⟩ := h.resolve_left hzero
    unfold quotientExp at hgt
    dsimp only at hgt
    obtain ⟨swd', hr⟩ := putQuotient_of_gt hgt
    exact ⟨swd', fun r => (if_neg hzero).trans ((if_neg (by omega)).trans (hr r))⟩

theorem fdiv_of_not (swd : BitVec 32) (h : ¬ DivFails x y) :
    ∃ swd' v, (∀ r, fdiv swd x y r = (swd', v)) ∧ swd' >>> 11 = swd >>> 11 := by
  obtain ⟨hzero, hle⟩ := not_or.mp h
  unfold fdiv
  dsimp only
  by_cases hneg : (x.exp : ℤ) - y.exp + 16383 < 0
  · refine ⟨_, _, fun _ => (if_neg hzero).trans (if_pos hneg), ?_⟩
    rw [setUE, BitVec.ushiftRight_or_distrib, show (16 : BitVec 32) >>> 11 = 0#32 from rfl,
      BitVec.or_zero]
  · have hle' : ¬ 0x7fff < quotientExp x y := fun hgt => hle ⟨by omega, hgt⟩
    unfold quotientExp at hle'
    dsimp only at hle'
    obtain ⟨swd', v, hr, htop⟩ := putQuotient_of_not hle'
    exact ⟨swd', v, fun r => (if_neg hzero).trans ((if_neg hneg).trans (hr r)), htop⟩

theorem Arith.run_of_fails (swd : BitVec 32) (h : a.Fails d s) :
    ∃ swd', ∀ r, a.run swd d s r = (swd', r) := by
  cases a with
  | add | sub | subr => exact h.elim
  | mul => exact ⟨_, fmul_of_fails swd h⟩
  | div | divr => exact fdiv_of_fails swd h

/-- Without a result nothing is computed. -/
theorem not_computes {f f' : Fpu} {dest : Nat} (h : a.Fails (f.pst dest) s) :
    ¬ Computes a f dest s f' := by
  intro ⟨swd, v, hv, _⟩
  obtain ⟨swd', hr⟩ := Arith.run_of_fails f.swd h
  have hall (r : TempReal) : r = v := by
    have h := hv r
    rw [hr r] at h
    exact congrArg Prod.snd h
  have habsurd := (hall ⟨⟨0, 0⟩, 0⟩).trans (hall ⟨⟨0, 0⟩, 1⟩).symm
  exact absurd (congrArg TempReal.exponent habsurd) (by decide)

/-! ### The switches -/

variable {f : Fpu} {p : Wide} {tmp : TempReal} {op field : Nat} {e : Emu}

theorem doEmu_reg (op : Nat) {run : Nat → Emu → Emu} (hrun : registerForm op = some run)
    (hop : op &&& 0x20 = 0 ∧ op &&& 0xf8 ≠ 0x58 ∧ op ≠ 0xdb) (i : Fin 8) :
    doEmu (8 * op + i) p f tmp = some (run i (Emu.start f tmp)) := by
  obtain ⟨heven, hda, hdb⟩ := hop
  have hdiv : (8 * op + (i : Nat)) / 8 = op := by omega
  have hmod : (8 * op + (i : Nat)) % 8 = i := by omega
  unfold doEmu
  dsimp only
  rw [if_neg (by omega), hdiv, if_neg (not_or.mpr ⟨not_not.mpr heven, hda⟩), hrun, hmod]

theorem doEmu_mem (t : MemType) (mod : Fin 3) (rm : Fin 8) (hfield : field < 8) :
    doEmu (8 * (0x40 * t.byte + 8 * mod + field) + rm) p f tmp =
      memoryForm field (load t.byte p (Emu.start f tmp)) := by
  have hforms : ∀ byte < 4, ∀ mod < 3, ∀ field < 8,
      (registerForm (0x40 * byte + 8 * mod + field)).isNone ∧
      (0x40 * byte + 8 * mod + field) &&& 0x20 = 0 ∧
      (0x40 * byte + 8 * mod + field) &&& 0xf8 ≠ 0x58 ∧
      (0x40 * byte + 8 * mod + field) &&& 0x27 = field := by decide
  have hbyte : t.byte < 4 := by cases t <;> decide
  obtain ⟨hnone, heven, hda, hmask⟩ := hforms t.byte hbyte mod mod.isLt field hfield
  generalize hop : 0x40 * t.byte + 8 * (mod : Nat) + field = op at *
  have hdiv : (8 * op + (rm : Nat)) / 8 = op := by omega
  have hload : (8 * op + (rm : Nat)) / 0x200 = t.byte := by omega
  unfold doEmu
  dsimp only
  rw [if_neg (by omega), hdiv, if_neg (not_or.mpr ⟨not_not.mpr heven, hda⟩),
    Option.isNone_iff_eq_none.mp hnone, hload, hmask]

/-- Only the short integers are not loaded. -/
theorem load_eq (t : MemType) (mod : Fin 3) (rm : Fin 8) (h : t ≠ .shortInt) (e : Emu) :
    load t.byte p e = e.setTmp (Source.value e.fpu p (.mem t mod rm)) := by
  cases t with
  | shortReal | longInt | longReal => rfl
  | shortInt => exact absurd rfl h

/-- A result in the destination. -/
theorem routine_store {r : TempReal → BitVec 32 × TempReal} {swd' : BitVec 32} {v : TempReal}
    (hr : ∀ x, r x = (swd', v)) (htop : swd' >>> 11 = e.fpu.swd >>> 11) (dest : Nat) :
    ((e.routine r false).store dest).garbage = e.garbage ∧
      ((e.routine r false).store dest).fpu = (e.fpu.setSt dest v).setSwd swd' := by
  have htop' : (e.fpu.setSwd swd').top = e.fpu.top := by
    unfold Fpu.top Fpu.setSwd
    dsimp only
    rw [htop]
  have hst := Fpu.st_congr htop' dest
  unfold Emu.store Emu.routine Emu.useTmp
  dsimp only
  rw [hr, Bool.not_false, Bool.or_true, Bool.not_true, Bool.or_false]
  unfold Fpu.setSt
  rw [hst]
  exact ⟨rfl, rfl⟩

/-- `ST(d)` with the sign changed in place, and then added. -/
theorem signed_sum {d k : Nat} (hd : d < 8) (hk : k < 8) (h : k = d → (f.pst d).m < 4) :
    fadd ((f.setSt d (changeSign (f.pst d))).pst k) ((f.setSt d (changeSign (f.pst d))).pst d) =
      fadd (f.pst k) (changeSign (f.pst d)) := by
  rw [Fpu.pst_setSt_self]
  by_cases hkd : k = d
  · subst hkd
    rw [Fpu.pst_setSt_self, fadd_changeSign]
    exact (fadd_self _).mpr (h rfl)
  · rw [Fpu.pst_setSt_of_ne hd hk hkd]

/-! ### The instructions -/

/-- The destination holds what the routine comes to. -/
def Stored (e e' : Emu) (dest : Nat) (r : TempReal → BitVec 32 × TempReal) : Prop :=
  e'.garbage = e.garbage ∧ ∃ swd v, (∀ x, r x = (swd, v)) ∧ e'.fpu = (e.fpu.setSt dest v).setSwd swd

theorem fmul_store (h : ¬ MulFails x y) (e : Emu) (dest : Nat) :
    Stored e ((e.fmul x y).store dest) dest (fmul e.fpu.swd x y) := by
  obtain ⟨v, hv⟩ := fmul_of_not e.fpu.swd h
  obtain ⟨hgarbage, hfpu⟩ := routine_store hv rfl dest
  unfold Emu.fmul
  rw [decide_eq_false h]
  exact ⟨hgarbage, _, v, hv, hfpu⟩

theorem fdiv_store (h : ¬ DivFails x y) (e : Emu) (dest : Nat) :
    Stored e ((e.fdiv x y).store dest) dest (fdiv e.fpu.swd x y) := by
  obtain ⟨swd', v, hv, htop⟩ := fdiv_of_not e.fpu.swd h
  obtain ⟨hgarbage, hfpu⟩ := routine_store hv htop dest
  unfold Emu.fdiv
  rw [decide_eq_false h]
  exact ⟨hgarbage, swd', v, hv, hfpu⟩

/-- `fsubr`: the sign is changed in place. -/
theorem subr_store {d k : Nat} (hd : d < 8) (hk : k < 8) (h : k = d → (e.fpu.pst d).m < 4) :
    ((e.signSt d).fadd ((e.signSt d).pst k) ((e.signSt d).pst d)).store d =
      (e.fadd (e.pst k) (changeSign (e.pst d))).store d := by
  have hsum := signed_sum (f := e.fpu) hd hk h
  unfold Emu.signSt Emu.fadd Emu.store Emu.setTmp Emu.useTmp Emu.pst
  dsimp only
  rw [hsum, Fpu.setSt_setSt]

theorem Emu.fadd_comm (e : Emu) (x y : TempReal) : e.fadd x y = e.fadd y x :=
  congrArg e.setTmp (Math.fadd_comm x y)

theorem Emu.fmul_comm (e : Emu) (x y : TempReal) : e.fmul x y = e.fmul y x := by
  unfold Emu.fmul
  rw [funext (Math.fmul_comm e.fpu.swd x y), decide_eq_decide.mpr mulFails_comm]

theorem emulates_arith_reg (i : Fin 8) (hfails : ¬ a.Fails (f.pst 0) (f.pst i))
    (htwice : ¬ a.Twice i (f.pst 0)) : Emulates (.arith a (.reg i)) p f tmp := by
  rw [← f.summary_pst, ← f.summary_pst] at hfails
  rw [← f.summary_pst] at htwice
  cases a with
  | add => exact ⟨_, doEmu_reg _ rfl (by decide) i, rfl, _, _, fun _ => rfl, rfl⟩
  | sub => exact ⟨_, doEmu_reg _ rfl (by decide) i, rfl, _, _, fun _ => rfl, rfl⟩
  | subr =>
      have hstore := subr_store (e := Emu.start f tmp) (d := 0) (by decide) i.isLt fun h0 =>
        Nat.lt_of_not_le fun hle => htwice ⟨rfl, Fin.ext h0, hle⟩
      refine ⟨_, doEmu_reg _ rfl (by decide) i, ?_⟩
      dsimp only
      rw [Emu.fadd_comm, hstore]
      exact ⟨rfl, _, _, fun _ => rfl, rfl⟩
  | mul =>
      refine ⟨_, doEmu_reg _ rfl (by decide) i, ?_⟩
      exact fmul_store hfails (Emu.start f tmp) 0
  | div | divr =>
      refine ⟨_, doEmu_reg _ rfl (by decide) i, ?_⟩
      exact fdiv_store hfails (Emu.start f tmp) 0

/-- What DC and DE do before anything is popped. -/
def stBody (a : Arith) (i : Nat) (e : Emu) : Emu :=
  match a with
  | .add => (e.fadd (e.pst i) (e.pst 0)).store i
  | .mul => (e.fmul (e.pst i) (e.pst 0)).store i
  | .sub =>
      let e := (e.setTmp (e.pst 0)).signTmp
      (e.useTmp.fadd (e.pst i) e.tmp).store i
  | .subr =>
      let e := e.signSt i
      (e.fadd (e.pst 0) (e.pst i)).store i
  | .div => (e.fdiv (e.pst i) (e.pst 0)).store i
  | .divr => (e.fdiv (e.pst 0) (e.pst i)).store i

theorem registerForm_st (a : Arith) (pop : Bool) :
    ∃ run, registerForm ((if pop then 0xd8 else 0x98) + a.fieldSt) = some run ∧
      ∀ i e, run i e = if pop then (stBody a i e).fpop else stBody a i e := by
  cases pop with
  | true => cases a <;> exact ⟨_, rfl, fun _ _ => rfl⟩
  | false =>
      cases a with
      | sub | subr | div | divr => exact ⟨_, rfl, fun _ _ => rfl⟩
      | add => exact ⟨_, rfl, fun i e => congrArg (Emu.store · i) (e.fadd_comm ..)⟩
      | mul => exact ⟨_, rfl, fun i e => congrArg (Emu.store · i) (e.fmul_comm ..)⟩

theorem doEmu_st (a : Arith) (pop : Bool) (i : Fin 8) :
    doEmu (Instr.arithSt a pop i).code p f tmp =
      some (if pop then (stBody a i (Emu.start f tmp)).fpop else stBody a i (Emu.start f tmp)) := by
  obtain ⟨run, hrun, heq⟩ := registerForm_st a pop
  rw [← heq]
  exact doEmu_reg _ hrun (by cases pop <;> cases a <;> decide) i

theorem stBody_computes (i : Fin 8) (hfails : ¬ a.Fails (e.fpu.pst i) (e.fpu.pst 0))
    (htwice : ¬ a.Twice i (e.fpu.pst 0)) :
    (stBody a i e).garbage = e.garbage ∧
      Computes a e.fpu i (e.fpu.pst 0) (stBody a i e).fpu := by
  have hgarbage : (e.garbage || !true) = e.garbage := Bool.or_false _
  cases a with
  | add => exact ⟨hgarbage, _, _, fun _ => rfl, rfl⟩
  | sub =>
      refine ⟨?_, _, _, fun _ => rfl, rfl⟩
      simp [stBody, Emu.store, Emu.useTmp, Emu.fadd, Emu.setTmp, Emu.signTmp]
  | subr =>
      have hstore := subr_store (e := e) i.isLt (k := 0) (by decide) fun h0 =>
        Nat.lt_of_not_le fun hle => htwice ⟨rfl, Fin.ext h0.symm, by rwa [← h0] at hle⟩
      unfold stBody
      dsimp only
      rw [hstore]
      exact ⟨hgarbage, _, _, fun _ => rfl, rfl⟩
  | mul => exact fmul_store hfails e i
  | div | divr => exact fdiv_store hfails e i

theorem emulates_arith_st (pop : Bool) (i : Fin 8) (hfails : ¬ a.Fails (f.pst i) (f.pst 0))
    (htwice : ¬ a.Twice i (f.pst 0)) : Emulates (.arithSt a pop i) p f tmp := by
  rw [← f.summary_pst, ← f.summary_pst] at hfails
  rw [← f.summary_pst] at htwice
  obtain ⟨hgarbage, hcomputes⟩ := stBody_computes (e := Emu.start f tmp) i hfails htwice
  refine ⟨_, doEmu_st a pop i, ?_⟩
  cases pop with
  | false => exact ⟨hgarbage, _, hcomputes, .refl _⟩
  | true => exact ⟨hgarbage, _, hcomputes, Fpu.fpop_pops _⟩

theorem memoryForm_computes (f : Fpu) (tmp : TempReal) (hfails : ¬ a.Fails (f.summary.pst 0) s) :
    ∃ e, memoryForm a.field ((Emu.start f tmp).setTmp s) = some e ∧ e.garbage = false ∧
      Computes a f.summary 0 s e.fpu := by
  cases a with
  | add => exact ⟨_, rfl, rfl, _, _, fun _ => rfl, congrArg (f.summary.setSt 0) (fadd_comm ..)⟩
  | sub => exact ⟨_, rfl, rfl, _, _, fun _ => rfl, congrArg (f.summary.setSt 0) (fadd_comm ..)⟩
  | subr =>
      refine ⟨_, rfl, rfl, _, _, fun _ => rfl, ?_⟩
      unfold Emu.store Emu.signSt Emu.fadd Emu.setTmp Emu.useTmp Emu.pst
      dsimp only
      rw [Fpu.setSt_setSt, Fpu.pst_setSt_self]
      rfl
  | mul =>
      refine ⟨_, rfl, ?_⟩
      have hstored := fmul_store hfails ((Emu.start f tmp).setTmp s) 0
      rw [Emu.fmul_comm] at hstored
      exact hstored
  | div | divr =>
      refine ⟨_, rfl, ?_⟩
      exact fdiv_store hfails ((Emu.start f tmp).setTmp s) 0

theorem summary_value (f : Fpu) (p : Wide) (s : Source) : s.value f.summary p = s.value f p := by
  cases s with
  | reg i => exact f.summary_pst i
  | mem t mod rm => cases t <;> rfl

theorem emulates_arith_mem {t : MemType} (mod : Fin 3) (rm : Fin 8) (ht : t ≠ .shortInt)
    (hfails : ¬ a.Fails (f.pst 0) (Source.value f p (.mem t mod rm))) :
    Emulates (.arith a (.mem t mod rm)) p f tmp := by
  rw [← summary_value, ← f.summary_pst] at hfails
  obtain ⟨e, he, hgarbage, hcomputes⟩ := memoryForm_computes f tmp hfails
  refine ⟨e, ?_, hgarbage, hcomputes⟩
  refine (doEmu_mem t mod rm (by cases a <;> decide)).trans ?_
  rw [load_eq t mod rm ht]
  exact he

theorem emulates_com_mem (pop : Bool) {t : MemType} (mod : Fin 3) (rm : Fin 8)
    (ht : t ≠ .shortInt) : Emulates (.com pop (.mem t mod rm)) p f tmp := by
  have hrun : doEmu (Instr.com pop (.mem t mod rm)).code p f tmp =
      memoryForm (comField pop) (load t.byte p (Emu.start f tmp)) :=
    doEmu_mem t mod rm (by cases pop <;> decide)
  rw [load_eq t mod rm ht] at hrun
  cases pop with
  | false => exact ⟨_, hrun, rfl, .refl _⟩
  | true => exact ⟨_, hrun, rfl, Fpu.fpop_pops _⟩

/-! ### What goes wrong -/

/-- Nothing is loaded for a short integer. -/
theorem garbage_of_shortInt (h : field < 8) (mod : Fin 3) (rm : Fin 8)
    (hrun : doEmu (8 * (0x40 * MemType.shortInt.byte + 8 * mod + field) + rm) p f tmp = some e) :
    e.garbage = true := by
  rw [doEmu_mem .shortInt mod rm h] at hrun
  have hall : ∀ field < 8, ∀ e', memoryForm field (Emu.start f tmp) = some e' →
      e'.garbage = true := by
    intro field hfield e' he'
    match field, hfield with
    | 0, _ | 1, _ | 2, _ | 3, _ | 4, _ | 5, _ | 6, _ | 7, _ => cases he'; rfl
  exact hall field h e hrun

/-- The sum with itself of a number whose sign has been changed is not the documented one. -/
theorem twice_ne (h : 4 ≤ (e.fpu.pst 0).m) :
    (stBody .subr 0 e).fpu.stSpace (e.fpu.st 0) ≠
      fadd (e.fpu.pst 0) (changeSign (e.fpu.pst 0)) := by
  have hst : (stBody .subr 0 e).fpu.stSpace (e.fpu.st 0) =
      fadd (changeSign (e.fpu.pst 0)) (changeSign (e.fpu.pst 0)) := by
    unfold stBody Emu.store Emu.signSt Emu.fadd Emu.setTmp Emu.useTmp Emu.pst
    dsimp only
    rw [Fpu.setSt_setSt, Fpu.pst_setSt_self]
    exact Fpu.pst_setSt_self
  rw [hst, fadd_changeSign]
  exact fun hself => absurd ((fadd_self _).mp hself) (Nat.not_lt.mpr h)

theorem Computes.stored {f f' : Fpu} {dest : Nat} (h : Computes a f dest s f') (r : TempReal) :
    f'.stSpace (f.st dest) = (a.run f.swd (f.pst dest) s r).2 := by
  obtain ⟨swd, v, hv, rfl⟩ := h
  rw [hv]
  exact Function.update_self (f.st dest) v f.stSpace

theorem fpop_stSpace (pop : Bool) (e : Emu) :
    (if pop then e.fpop else e).fpu.stSpace = e.fpu.stSpace := by
  cases pop <;> rfl

theorem not_twice_reg {i : Fin 8} (h : Emulates (.arith a (.reg i)) p f tmp) :
    ¬ a.Twice i (f.pst 0) := by
  rintro ⟨rfl, rfl, hm⟩
  obtain ⟨e, he, _, hdoc⟩ := h
  rw [← f.summary_pst] at hm
  refine twice_ne (e := Emu.start f tmp) hm ?_
  have hrun : some (stBody .subr 0 (Emu.start f tmp)) = some e :=
    (doEmu_reg 0x1d rfl (by decide) 0).symm.trans he
  rw [Option.some.inj hrun]
  exact Computes.stored hdoc ⟨⟨0, 0⟩, 0⟩

theorem not_twice_st {pop : Bool} {i : Fin 8} (h : Emulates (.arithSt a pop i) p f tmp) :
    ¬ a.Twice i (f.pst 0) := by
  rintro ⟨rfl, rfl, hm⟩
  obtain ⟨e, he, _, g, hdoc, hpops⟩ := h
  rw [← f.summary_pst] at hm
  refine twice_ne (e := Emu.start f tmp) hm ?_
  have hrun : some (if pop then (stBody .subr 0 (Emu.start f tmp)).fpop
      else stBody .subr 0 (Emu.start f tmp)) = some e := (doEmu_st .subr pop 0).symm.trans he
  rw [← fpop_stSpace pop, Option.some.inj hrun, hpops.stSpace]
  exact Computes.stored hdoc ⟨⟨0, 0⟩, 0⟩

theorem not_fails_reg {i : Fin 8} (h : Emulates (.arith a (.reg i)) p f tmp) :
    ¬ a.Fails (f.pst 0) (f.pst i) := by
  intro hfails
  obtain ⟨e, _, _, hdoc⟩ := h
  rw [← f.summary_pst, ← f.summary_pst] at hfails
  exact not_computes hfails hdoc

/-- An instruction comes out as documented exactly if no routine is left without a result, `ST(0)`
is not doubled by `fsubr`, the operand is not a short integer, and it is not `fcom` of D8. -/
theorem emulates_iff (ins : Instr) (p : Wide) (f : Fpu) (tmp : TempReal) :
    Emulates ins p f tmp ↔ Good ins p f := by
  cases ins with
  | arith a src =>
      cases src with
      | reg i =>
          exact ⟨fun h => ⟨not_fails_reg h, not_twice_reg h⟩, fun h => emulates_arith_reg i h.1 h.2⟩
      | mem t mod rm =>
          refine ⟨fun ⟨e, he, hclean, hdoc⟩ => ⟨fun ht => ?_, fun hfails => ?_⟩,
            fun h => emulates_arith_mem mod rm h.1 h.2⟩
          · subst ht
            have hgarbage := garbage_of_shortInt (by cases a <;> decide) mod rm he
            rw [hclean] at hgarbage
            cases hgarbage
          · rw [← summary_value, ← f.summary_pst] at hfails
            exact not_computes hfails hdoc
  | arithSt a pop i =>
      refine ⟨fun h => ⟨fun hfails => ?_, not_twice_st h⟩, fun h => emulates_arith_st pop i h.1 h.2⟩
      obtain ⟨_, _, _, g, hdoc, _⟩ := h
      rw [← f.summary_pst, ← f.summary_pst] at hfails
      exact not_computes hfails hdoc
  | com pop src =>
      cases src with
      | reg i =>
          refine ⟨fun ⟨e, he, hclean, _⟩ => ?_, False.elim⟩
          cases pop with
          | false =>
              cases (doEmu_reg 0x1a rfl (by decide) i).symm.trans he
              cases hclean
          | true =>
              cases (doEmu_reg 0x1b rfl (by decide) i).symm.trans he
              cases hclean
      | mem t mod rm =>
          refine ⟨fun ⟨e, he, hclean, _⟩ ht => ?_, fun h => emulates_com_mem pop mod rm h⟩
          subst ht
          have hgarbage := garbage_of_shortInt (by cases pop <;> decide) mod rm he
          rw [hclean] at hgarbage
          cases hgarbage
  | comDc pop i =>
      refine iff_of_true ?_ trivial
      cases pop with
      | false => exact ⟨_, doEmu_reg 0x9a rfl (by decide) i, rfl, .refl _⟩
      | true => exact ⟨_, doEmu_reg 0x9b rfl (by decide) i, rfl, Fpu.fpop_pops _⟩
  | comDe i =>
      exact iff_of_true ⟨_, doEmu_reg 0xda rfl (by decide) i, rfl, Fpu.fpop_pops _⟩ trivial
  | compp =>
      exact iff_of_true ⟨_, rfl, rfl, (Fpu.fpop_pops _).trans (Fpu.fpop_pops _)⟩ trivial

/-- `fcom ST(1)` with all registers 0, and 1 left on the stack: the 1 ends up in `ST(0)`. -/
theorem not_emulates_fcom :
    ¬ ∀ (ins : Instr) (p : Wide) (f : Fpu) (tmp : TempReal), Emulates ins p f tmp := by
  intro h
  obtain ⟨e, he, hclean, _⟩ := h (.com false (.reg 1)) ⟨0, 0⟩ ⟨0x37f, 0, fun _ => ⟨⟨0, 0⟩, 0⟩⟩
    ⟨⟨0, 0x80000000⟩, 0x3fff⟩
  cases he
  cases hclean

end LinuxKernel.V012.Math
