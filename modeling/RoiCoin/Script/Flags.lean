import Mathlib.Data.BitVec

/-! The script verification flags (`script/interpreter.h`, `script/standard.h`). -/

namespace RoiCoin

def scriptVerifyNone : BitVec 32 := 0
def scriptVerifyP2SH : BitVec 32 := 1
def scriptVerifyStrictenc : BitVec 32 := 1 <<< 1
def scriptVerifyDersig : BitVec 32 := 1 <<< 2
def scriptVerifyLowS : BitVec 32 := 1 <<< 3
def scriptVerifyNulldummy : BitVec 32 := 1 <<< 4
def scriptVerifySigpushonly : BitVec 32 := 1 <<< 5
def scriptVerifyMinimaldata : BitVec 32 := 1 <<< 6
def scriptVerifyDiscourageUpgradableNops : BitVec 32 := 1 <<< 7
def scriptVerifyCleanstack : BitVec 32 := 1 <<< 8
def scriptVerifyChecklocktimeverify : BitVec 32 := 1 <<< 9

def mandatoryScriptVerifyFlags : BitVec 32 := scriptVerifyP2SH

def standardScriptVerifyFlags : BitVec 32 :=
  mandatoryScriptVerifyFlags ||| scriptVerifyDersig ||| scriptVerifyStrictenc |||
    scriptVerifyMinimaldata ||| scriptVerifyNulldummy ||| scriptVerifyDiscourageUpgradableNops |||
    scriptVerifyCleanstack ||| scriptVerifyChecklocktimeverify ||| scriptVerifyLowS

def standardNotMandatoryVerifyFlags : BitVec 32 :=
  standardScriptVerifyFlags &&& ~~~mandatoryScriptVerifyFlags

/-- `(flags & flag) != 0` -/
def hasFlag (flags flag : BitVec 32) : Bool := flags &&& flag != 0

/-- Every flag of the first set is in the second. -/
def FlagsWithin (fewer more : BitVec 32) : Prop := fewer &&& more = fewer

instance (fewer more : BitVec 32) : Decidable (FlagsWithin fewer more) :=
  inferInstanceAs (Decidable (fewer &&& more = fewer))

theorem hasFlag_within (fewer more flag : BitVec 32) (within : FlagsWithin fewer more)
    (set : hasFlag fewer flag = true) : hasFlag more flag = true := by
  simp only [hasFlag, bne_iff_ne, ne_eq] at set ⊢
  intro absent
  apply set
  rw [← within, BitVec.and_assoc, absent]
  exact BitVec.and_zero

theorem hasFlag_or (flags flag : BitVec 32) (nonzero : flag ≠ 0) :
    hasFlag (flags ||| flag) flag = true := by
  have kept : (flags ||| flag) &&& flag = flag := by
    ext i within
    rw [BitVec.getElem_and, BitVec.getElem_or]
    cases flags[i] <;> simp
  rw [hasFlag, kept, bne_iff_ne]
  exact nonzero

end RoiCoin
