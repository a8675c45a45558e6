import SymReloc.Runtime.BoundAxes

/-!
# The descriptors of a bound plan

A plan states its geometry several times: in the axes, in the two tensor
descriptors, and in the pads.  `bind` reads the axes, the pads and the element type
of the destination, and under `runtime_pad_check` the extents of the padded axes; it
reads no offset, no descriptor stride and no source element type.  A run therefore
honours the descriptors exactly when they agree with the rest of the plan.
-/

namespace SymReloc

open Outcome

/-! ### Descriptors under symbol values -/

structure ConcreteDesc where
  extents : List Int
  strides : List Int
  offset : Int
deriving DecidableEq, Repr

/-- Canonical row-major strides. -/
def rowMajor : List Int → List Int
  | [] => []
  | _ :: rest => rest.prod :: rowMajor rest

def TensorDesc.evaluateStrides (symbols : List Int) (desc : TensorDesc) (extents : List Int) :
    Outcome EvalError (List Int) :=
  if desc.strides = [] then .ok (rowMajor extents)
  else mapEach desc.strides fun stream => evalExpr stream symbols

def TensorDesc.evaluate (symbols : List Int) (desc : TensorDesc) :
    Outcome EvalError ConcreteDesc := do
  let extents ← mapEach desc.extents fun stream => evalExpr stream symbols
  let strides ← desc.evaluateStrides symbols extents
  let offset ← evalExpr desc.offset symbols
  pure { extents, strides, offset }

theorem length_rowMajor (extents : List Int) : (rowMajor extents).length = extents.length := by
  induction extents with
  | nil => rfl
  | cons extent rest ih => exact congrArg (· + 1) ih

theorem length_evaluate {symbolCount : Nat} {symbols : List Int} {desc : TensorDesc}
    {concrete : ConcreteDesc} (hwf : desc.WellFormed symbolCount)
    (h : desc.evaluate symbols = .ok concrete) :
    concrete.strides.length = desc.extents.length := by
  simp only [TensorDesc.evaluate, bind_ok_iff, pure_eq, Outcome.ok.injEq] at h
  obtain ⟨extents, hextents, strides, hstrides, offset, -, rfl⟩ := h
  have hlength := (mapEach_eq_ok.mp hextents).length_eq
  unfold TensorDesc.evaluateStrides at hstrides
  split at hstrides
  · cases hstrides
    rw [length_rowMajor, hlength]
  · rename_i hne
    have hstrides := (mapEach_eq_ok.mp hstrides).length_eq
    rcases hwf.stride_count with hnil | hcount
    · exact absurd (List.length_eq_zero_iff.mp hnil) hne
    · rw [← hstrides, hcount]

/-! ### What the descriptors ask for -/

/-- The axes with the strides of the destination descriptor. -/
def describedAxes (axes : List ConcreteAxis) (strides : List Int) : List WalkAxis :=
  List.zipWith (fun axis stride => { axis.walk with dstStride := stride }) axes strides

/-- Executing the bound plan visits the cells that the descriptors describe: with the
    element width of the source, from the offset of the source descriptor to the cells
    of the destination descriptor, whose extents are the padded ones. -/
def Honours (plan : RelocationPlan) (symbols : List Int) (axes : List ConcreteAxis)
    (bound : BoundPlan) : Prop :=
  ∃ srcOffset dst, evalExpr plan.src.offset symbols = .ok srcOffset ∧
    plan.dst.evaluate symbols = .ok dst ∧
    8 * bound.elementSize = plan.src.elementType.bitwidth ∧
    visits bound.walkAxes 0 0 = visits (describedAxes axes dst.strides) srcOffset dst.offset ∧
    axes.map ConcreteAxis.cells = dst.extents

def firstIndex (axes : List ConcreteAxis) : List Int := axes.map fun _ => 0

/-- The descriptors agree with the axes, the pads and each other. -/
def DescriptorsAgree (plan : RelocationPlan) (symbols : List Int) (axes : List ConcreteAxis) :
    Prop :=
  ∃ dst, evalExpr plan.src.offset symbols = .ok 0 ∧ plan.dst.evaluate symbols = .ok dst ∧
    plan.src.elementType.bitwidth = plan.dst.elementType.bitwidth ∧
    axes.map ConcreteAxis.cells = dst.extents ∧
    List.Forall₂ (fun axis stride => 1 < axis.extent → axis.dstStride = stride)
      axes dst.strides ∧
    dstOffset (axes.map ConcreteAxis.walk) (firstIndex axes) =
      dst.offset + dstOffset (describedAxes axes dst.strides) (firstIndex axes)

section Offsets

variable {axes : List ConcreteAxis} {strides : List Int}

theorem map_extent_describedAxes (hlength : strides.length = axes.length) :
    (describedAxes axes strides).map WalkAxis.extent =
      (axes.map ConcreteAxis.walk).map WalkAxis.extent := by
  induction axes generalizing strides with
  | nil => rfl
  | cons axis axes ih =>
      cases strides with
      | nil => cases hlength
      | cons stride strides =>
          exact congrArg (axis.extent :: ·) (ih (Nat.succ.inj hlength))

theorem srcOffset_describedAxes (hlength : strides.length = axes.length) (index : List Int) :
    srcOffset (describedAxes axes strides) index =
      srcOffset (axes.map ConcreteAxis.walk) index := by
  induction axes generalizing strides index with
  | nil => rfl
  | cons axis axes ih =>
      cases strides with
      | nil => cases hlength
      | cons stride strides =>
          cases index with
          | nil => rfl
          | cons i index =>
              exact congrArg (i * axis.srcStride + ·) (ih (Nat.succ.inj hlength) index)

theorem valid_firstIndex (hsound : ∀ axis ∈ axes, axis.Sound) :
    Valid (axes.map ConcreteAxis.walk) (firstIndex axes) := by
  induction axes with
  | nil => exact .nil
  | cons axis axes ih =>
      rw [List.forall_mem_cons] at hsound
      exact .cons ⟨le_refl 0, hsound.1.extent⟩ (ih hsound.2)

/-- The destination offsets differ by `c` at every valid index exactly when they do at
    the first one and the strides agree on every axis that has a second one. -/
theorem dstOffset_agree_iff (hsound : ∀ axis ∈ axes, axis.Sound)
    (hlength : strides.length = axes.length) (c : Int) :
    (∀ index, Valid (axes.map ConcreteAxis.walk) index →
        dstOffset (axes.map ConcreteAxis.walk) index =
          c + dstOffset (describedAxes axes strides) index) ↔
      List.Forall₂ (fun axis stride => 1 < axis.extent → axis.dstStride = stride) axes strides ∧
        dstOffset (axes.map ConcreteAxis.walk) (firstIndex axes) =
          c + dstOffset (describedAxes axes strides) (firstIndex axes) := by
  induction axes generalizing strides c with
  | nil =>
      obtain rfl := List.length_eq_zero_iff.mp hlength
      constructor
      · intro h
        exact ⟨.nil, h [] .nil⟩
      · rintro ⟨-, h⟩ index (_ | _)
        exact h
  | cons axis axes ih =>
      cases strides with
      | nil => cases hlength
      | cons stride strides =>
          rw [List.forall_mem_cons] at hsound
          have hfirst := valid_firstIndex hsound.2
          -- what an offset along this axis leaves for the others
          have hstep : ∀ i index, dstOffset ((axis :: axes).map ConcreteAxis.walk) (i :: index) =
                c + dstOffset (describedAxes (axis :: axes) (stride :: strides)) (i :: index) ↔
              dstOffset (axes.map ConcreteAxis.walk) index =
                c + (i + axis.lo) * (stride - axis.dstStride) +
                  dstOffset (describedAxes axes strides) index := by
            intro i index
            have hleft : dstOffset ((axis :: axes).map ConcreteAxis.walk) (i :: index) =
                (i + axis.lo) * axis.dstStride +
                  dstOffset (axes.map ConcreteAxis.walk) index := rfl
            have hright : dstOffset (describedAxes (axis :: axes) (stride :: strides))
                (i :: index) = (i + axis.lo) * stride +
                  dstOffset (describedAxes axes strides) index := rfl
            rw [hleft, hright, mul_sub]
            constructor <;> intro h <;> linarith
          have hih := ih hsound.2 (Nat.succ.inj hlength)
          constructor
          · intro h
            have hzero := fun index hindex =>
              (hstep 0 index).mp (h (0 :: index) (.cons ⟨le_refl 0, hsound.1.extent⟩ hindex))
            obtain ⟨hrest, -⟩ := (hih _).mp hzero
            refine ⟨.cons (fun hlt => ?_) hrest, ?_⟩
            · have hone := (hstep 1 _).mp (h (1 :: _) (.cons ⟨by decide, hlt⟩ hfirst))
              have h0 := hzero _ hfirst
              linarith
            · exact (hstep 0 _).mpr (hzero _ hfirst)
          · rintro ⟨_ | ⟨hstride, hrest⟩, h0⟩ _ (_ | ⟨hi, hindex⟩)
            rename_i i index
            refine (hstep i index).mpr ?_
            have h0' := (hstep 0 _).mp h0
            have hagree := (hih _).mpr ⟨hrest, h0'⟩ index hindex
            rw [hagree]
            by_cases hlt : 1 < axis.extent
            · rw [hstride hlt]
              ring
            · have hiZero : i = 0 := by
                have : i < axis.extent := hi.2
                omega
              rw [hiZero]

end Offsets

/-- The visits are those of the descriptors exactly when the offsets and strides agree. -/
theorem visits_describedAxes_iff {axes : List ConcreteAxis} (hsound : ∀ axis ∈ axes, axis.Sound)
    {strides : List Int} (hlength : strides.length = axes.length) (srcOff dstOff : Int) :
    visits (axes.map ConcreteAxis.walk) 0 0 =
        visits (describedAxes axes strides) srcOff dstOff ↔
      srcOff = 0 ∧
      List.Forall₂ (fun axis stride => 1 < axis.extent → axis.dstStride = stride) axes strides ∧
        dstOffset (axes.map ConcreteAxis.walk) (firstIndex axes) =
          dstOff + dstOffset (describedAxes axes strides) (firstIndex axes) := by
  rw [← dstOffset_agree_iff hsound hlength, visits_eq_map, visits_eq_map,
    map_extent_describedAxes hlength, List.map_inj_left]
  simp only [mem_indices, zero_add, Prod.mk.injEq, srcOffset_describedAxes hlength]
  constructor
  · intro h
    have hfirst := (h _ (valid_firstIndex hsound)).1
    exact ⟨by omega, fun index hindex => (h index hindex).2⟩
  · rintro ⟨rfl, h⟩ index hindex
    exact ⟨(zero_add _).symm, h index hindex⟩

/-- Two 32-bit elements, from the given offset of the source on. -/
def pairAt (offset : Int) : RelocationPlan where
  symbols := []
  src := { denseDesc [2] with offset := [.pushConst offset] }
  dst := denseDesc [2]
  perm := [0]
  axes := [constantAxis 2 1]
  padFill := []
  divisibility := []
  alignment := []
  contiguity := []
  noCopy := false
  runtimePadCheck := false
  inverse := [[.pushDim 0]]

def pairBound : BoundPlan where
  extents := [2]
  srcStrides := [1]
  dstStrides := [1]
  perm := [0]
  padRegions := []
  elementSize := 4
  totalBytes := 8
  noCopy := false
  typed := false
  strategy := .singleThreadSimd
  L := 2
  requiredAlignments := []

def pairAxis : ConcreteAxis where
  extent := 2
  srcStride := 1
  dstStride := 1
  padded := false
  lo := 0
  hi := 0
  fillBits := 0

end SymReloc
