import OpenRar.Core.Bytes
import OpenRar.Foundation.CauchyErasure
import OpenRar.Recovery.GaloisField

/-!
# The erasure code `ReedSolomon16`

Embedding of `recovery/rs16.cpp` above the field tables: the encoder matrix, the
decoder matrix with its inverted Cauchy system, and the folding of one data unit
into one output unit.

Folding has a scalar path with two table variants and vector kernels that look
nibbles up in sixteen-entry tables.  The kernel that a process selects depends
on the processor, so it is a parameter here; a vector kernel handles the largest
multiple of its lane width and leaves the rest to direct products.  The
calibrated affine-instruction kernel is not modelled.
-/

namespace OpenRar.Recovery

open LuInversion OpenRar.Core

/-- The state of one coder: unit counts, validity flags and the coefficient
matrix, indexed by output unit and data unit. -/
structure ReedSolomon16 where
  nd : Nat
  nr : Nat
  ne : Nat
  validFlags : List Bool
  mx : Nat → Nat → Nat

/-- `fill_parity_coefficients`: the systematic Cauchy generator.  Parity slot
`nd + i` and data slot `d` are the coordinates. -/
def fillParityCoefficients (nd : Nat) : Nat → Nat → Nat := fun i d =>
  gfInv (gfAdd (nd + i) d)

/-- Data slots that are not valid, ascending. -/
def erasedSlots (nd : Nat) (validFlags : List Bool) : List Nat :=
  (List.range nd).filter fun slot => !validFlags.getD slot false

/-- Parity slots that are valid, ascending. -/
def validParitySlots (nd nr : Nat) (validFlags : List Bool) : List Nat :=
  (List.range' nd nr).filter fun slot => validFlags.getD slot false

/-- `invert_square`: LU inversion with the field tables. -/
def invertSquare (m : Nat → Nat → Nat) (n : Nat) : Option (Nat → Nat → Nat) :=
  invert gfOps m n

/-- `derive_recovery_coefficients`: the decoder matrix.  A healthy data unit is
weighted by its merged contribution to the substitute equations, the slot of an
erased unit by the solved row itself. -/
def deriveRecoveryCoefficients (nd nr ne : Nat) (validFlags : List Bool) : Nat → Nat → Nat :=
  let erased := (erasedSlots nd validFlags).take ne
  let substitutes := (validParitySlots nd nr validFlags).take ne
  if erased.length ≠ ne ∨ substitutes.length ≠ ne then fun _ _ => 0
  else
    let system := fun i r => gfInv (gfAdd (substitutes.getD i 0) (erased.getD r 0))
    match invertSquare system ne with
    | none => fun _ _ => 0
    | some solved => fun k d =>
      if d ∈ erased then solved k (erased.idxOf d)
      else if validFlags.getD d false then
        (List.range ne).foldl
          (fun acc i => acc ^^^ gfMul (solved k i) (gfInv (gfAdd (substitutes.getD i 0) d))) 0
      else 0

/-- `init`: encoder mode without flags, decoder mode with them.  `none` is the
source's `false`. -/
def ReedSolomon16.init (dataCount recCount : Nat) (validFlags : Option (List Bool)) :
    Option ReedSolomon16 :=
  if dataCount = 0 ∨ recCount = 0 ∨ (dataCount + recCount) % 2 ^ 32 > gfSize then none
  else
    match validFlags with
    | some flags =>
      let ne := (erasedSlots dataCount flags).length
      let validEcc := (validParitySlots dataCount recCount flags).length
      if ne > validEcc ∨ ne = 0 ∨ validEcc = 0 then none
      else if ne > sizeMax / dataCount then none
      else
        some
          { nd := dataCount
            nr := recCount
            ne := ne
            validFlags := flags
            mx := deriveRecoveryCoefficients dataCount recCount ne flags }
    | none =>
      if recCount > sizeMax / dataCount then none
      else
        some
          { nd := dataCount
            nr := recCount
            ne := 0
            validFlags := []
            mx := fillParityCoefficients dataCount }

/-! ## Folding -/

/-- Fold the products of the data words into the output words, little endian.
An odd last byte is folded as the low half of a word whose product comes from
`tailMul`. -/
def foldWords (mul tailMul : Nat → Nat) : List UInt8 → List UInt8 → List UInt8
  | d0 :: d1 :: data, e0 :: e1 :: ecc =>
    let b := d0.toNat ||| (d1.toNat <<< 8)
    let ec := (e0.toNat ||| (e1.toNat <<< 8)) ^^^ mul b
    UInt8.ofNat (ec &&& 0xFF) :: UInt8.ofNat ((ec >>> 8) &&& 0xFF) ::
      foldWords mul tailMul data ecc
  | [d], [e] => [e ^^^ UInt8.ofNat (tailMul d.toNat &&& 0xFF)]
  | _, ecc => ecc

/-- Product of the table path: `mul_lo` and `mul_hi` hold the products of the
two byte halves. -/
def tableProduct (coeff b : Nat) : Nat :=
  gfMul coeff (b &&& 0xFF) ^^^ gfMul coeff (((b >>> 8) &&& 0xFF) <<< 8)

/-- One byte half through the nibble tables of the constant `k`. -/
def nibbleLookup (k half : Nat) : Nat :=
  gfMul k (half &&& 0x0F) ^^^ gfMul k ((half >>> 4) <<< 4)

/-- Product of the vector kernels.  The low and the high output bytes come from
separate byte tables. -/
def nibbleProduct (coeff b : Nat) : Nat :=
  let k1 := gfMul coeff 0x100
  let lo := nibbleLookup coeff (b &&& 0xFF)
  let hi := nibbleLookup k1 ((b >>> 8) &&& 0xFF)
  ((lo &&& 0xFF) ^^^ (hi &&& 0xFF)) ||| ((((lo >>> 8) &&& 0xFF) ^^^ ((hi >>> 8) &&& 0xFF)) <<< 8)

/-- `update_ecc_scalar` on blocks of `ecc.length` bytes. -/
def ReedSolomon16.updateEccScalar (rs : ReedSolomon16) (dataNum eccNum : Nat)
    (data ecc : List UInt8) : List UInt8 :=
  let ecc := if dataNum = 0 then List.replicate ecc.length 0 else ecc
  let coeff := rs.mx eccNum dataNum
  if coeff = 0 then ecc
  else if ecc.length < 2048 then foldWords (gfMul coeff) (gfMul coeff) data ecc
  else foldWords (tableProduct coeff) (gfMul coeff) data ecc

/-- The fold kernels that `update_ecc` can dispatch to. -/
inductive FoldKernel
  | scalar
  | ssse3
  | avx2
  | neon
  deriving DecidableEq, Repr

/-- Bytes per round of a vector kernel. -/
def FoldKernel.lanes : FoldKernel → Option Nat
  | .scalar => none
  | .ssse3 => some 32
  | .avx2 => some 64
  | .neon => some 32

/-- `update_ecc`: a vector kernel folds the body, direct products the rest;
blocks shorter than one round take the scalar path. -/
def ReedSolomon16.updateEcc (rs : ReedSolomon16) (kernel : FoldKernel) (dataNum eccNum : Nat)
    (data ecc : List UInt8) : List UInt8 :=
  match kernel.lanes with
  | none => rs.updateEccScalar dataNum eccNum data ecc
  | some lanes =>
    let cleared := if dataNum = 0 then List.replicate ecc.length 0 else ecc
    let coeff := rs.mx eccNum dataNum
    if coeff = 0 then cleared
    else if lanes ≤ ecc.length then
      let body := ecc.length / lanes * lanes
      foldWords (nibbleProduct coeff) (nibbleProduct coeff) (data.take body) (cleared.take body)
        ++ foldWords (gfMul coeff) (gfMul coeff) (data.drop body) (cleared.drop body)
    else rs.updateEccScalar dataNum eccNum data cleared

/-- Fold a run of units, the first of them at slot `dataNum`, into one output
unit. -/
def ReedSolomon16.foldUnits (rs : ReedSolomon16) (kernel : FoldKernel) (eccNum : Nat) :
    Nat → List (List UInt8) → List UInt8 → List UInt8
  | _, [], ecc => ecc
  | dataNum, data :: units, ecc =>
    foldUnits rs kernel eccNum (dataNum + 1) units
      (rs.updateEcc kernel dataNum eccNum data ecc)

/-- The unit vector a decoder is fed: the `r`-th erased data unit is replaced by
the `r`-th valid parity unit, in ascending slot order. -/
def substituteUnits (nd nr : Nat) (validFlags : List Bool) (units parity : List (List UInt8)) :
    List (List UInt8) :=
  let erased := erasedSlots nd validFlags
  let substitutes := validParitySlots nd nr validFlags
  (List.range nd).map fun d =>
    if d ∈ erased then parity.getD (substitutes.getD (erased.idxOf d) 0 - nd) []
    else units.getD d []

end OpenRar.Recovery
