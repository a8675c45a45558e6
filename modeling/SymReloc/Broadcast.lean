import Mathlib.Data.List.Forall2
import Mathlib.Data.List.GetD
import Mathlib.Data.Option.Basic
import Mathlib.Tactic.Common

/-!
# Right-aligned joins

Two lists are aligned at their ends, the shorter one filled up with a unit, and joined place by
place by a partial operation.  The join of the flat order over a unit, up to an equivalence, is
commutative and associative, and so is the aligned join it gives.
-/

namespace Broadcast

variable {α β : Type}

/-! ### Places from the right -/

/-- The entry at a place counted from the right, the unit beyond the left end. -/
def fromRight (one : α) (shape : List α) (place : Nat) : α :=
  if place < shape.length then shape.getD (shape.length - 1 - place) one else one

theorem fromRight_of_le {one : α} {shape : List α} {place : Nat} (h : shape.length ≤ place) :
    fromRight one shape place = one := if_neg (Nat.not_lt.mpr h)

theorem fromRight_of_lt {one : α} {shape : List α} {place : Nat} (h : place < shape.length) :
    fromRight one shape place = shape.get ⟨shape.length - 1 - place, by omega⟩ := by
  have hindex : shape.length - 1 - place < shape.length := by omega
  rw [fromRight, if_pos h, List.getD_eq_getElem _ _ hindex]
  rfl

theorem fromRight_reverse (one : α) (places : List α) (place : Nat) :
    fromRight one places.reverse place = places.getD place one := by
  unfold fromRight
  rw [List.length_reverse]
  split
  · rename_i h
    have hindex : places.length - 1 - place < places.reverse.length := by
      rw [List.length_reverse]
      omega
    rw [List.getD_eq_getElem _ _ hindex, List.getD_eq_getElem _ _ h, List.getElem_reverse]
    congr 1
    omega
  · rename_i h
    rw [List.getD_eq_default _ _ (Nat.not_lt.mp h)]

/-- Lists of one length are related as soon as their places are. -/
theorem forall₂_of_fromRight {R : α → β → Prop} (one : α) (one' : β) {left : List α}
    {right : List β} (hlength : left.length = right.length)
    (h : ∀ place, R (fromRight one left place) (fromRight one' right place)) :
    List.Forall₂ R left right := by
  refine List.forall₂_iff_get.mpr ⟨hlength, fun i hi hi' => ?_⟩
  have hplace := h (left.length - 1 - i)
  have hleft : left.length - 1 - i < left.length := by omega
  have hright : left.length - 1 - i < right.length := by omega
  rw [fromRight_of_lt hleft, fromRight_of_lt hright] at hplace
  have hfst : left.length - 1 - (left.length - 1 - i) = i := by omega
  have hsnd : right.length - 1 - (left.length - 1 - i) = i := by omega
  simp only [hfst, hsnd] at hplace
  exact hplace

theorem eq_of_fromRight (one : α) {left right : List α} (hlength : left.length = right.length)
    (h : ∀ place, fromRight one left place = fromRight one right place) : left = right :=
  List.forall₂_eq_eq_eq ▸ forall₂_of_fromRight (R := Eq) one one hlength h

/-! ### Aligned joins -/

theorem mapM_eq_some {f : α → Option β} {list : List α} {result : List β} :
    list.mapM f = some result ↔ list.map f = result.map some := by
  induction list generalizing result with
  | nil => cases result <;> simp
  | cons a rest ih =>
      rw [List.mapM_cons]
      cases result with
      | nil =>
          cases f a with
          | none => simp
          | some head => cases rest.mapM f <;> simp
      | cons b tail =>
          have htail : rest.mapM f = some tail ↔ rest.map f = tail.map some := ih
          cases hhead : f a with
          | none => simp [hhead]
          | some head =>
              cases hrest : rest.mapM f with
              | none =>
                  rw [hrest] at htail
                  simp [hhead, ← htail]
              | some found =>
                  rw [hrest, Option.some.injEq] at htail
                  simp [hhead, ← htail]

/-- Join two lists place by place from the right. -/
def aligned (one : α) (join : α → α → Option α) (left right : List α) : Option (List α) :=
  ((List.range (max left.length right.length)).mapM fun place =>
    join (fromRight one left place) (fromRight one right place)).map List.reverse

variable {one : α} {join : α → α → Option α}

theorem aligned_eq_some (hone : join one one = some one) {left right result : List α} :
    aligned one join left right = some result ↔
      result.length = max left.length right.length ∧ ∀ place,
        join (fromRight one left place) (fromRight one right place) =
          some (fromRight one result place) := by
  unfold aligned
  rw [Option.map_eq_some_iff]
  constructor
  · rintro ⟨places, hplaces, rfl⟩
    have hmap := mapM_eq_some.mp hplaces
    have hlength : places.length = max left.length right.length := by
      simpa using (congrArg List.length hmap).symm
    refine ⟨by rw [List.length_reverse, hlength], fun place => ?_⟩
    rw [fromRight_reverse]
    by_cases hplace : place < max left.length right.length
    · have hat := congrArg (fun list => list[place]?) hmap
      have hin : place < places.length := hlength ▸ hplace
      simpa [hplace, hin, List.getD_eq_getElem] using hat
    · have hout := Nat.not_lt.mp hplace
      rw [fromRight_of_le (Nat.le_trans (Nat.le_max_left _ _) hout),
        fromRight_of_le (Nat.le_trans (Nat.le_max_right _ _) hout), hone,
        List.getD_eq_default _ _ (hlength ▸ hout)]
  · rintro ⟨hlength, hplaces⟩
    refine ⟨result.reverse, mapM_eq_some.mpr ?_, List.reverse_reverse result⟩
    refine List.ext_getElem (by simp [hlength]) fun place hleft hright => ?_
    have hplace : place < result.length := by simpa using hright
    have hback := fromRight_reverse one result.reverse place
    rw [List.reverse_reverse] at hback
    have hin : place < result.reverse.length := by simpa using hplace
    rw [List.getElem_map, List.getElem_map, List.getElem_range, hplaces, hback,
      List.getD_eq_getElem _ _ hin]

/-- The aligned join succeeds where every place does. -/
theorem exists_aligned {left right : List α}
    (h : ∀ place, ∃ c, join (fromRight one left place) (fromRight one right place) = some c) :
    ∃ result, aligned one join left right = some result := by
  choose entry hentry using h
  have hplaces : (List.range (max left.length right.length)).mapM (fun place =>
      join (fromRight one left place) (fromRight one right place)) =
      some ((List.range (max left.length right.length)).map entry) := by
    rw [mapM_eq_some, List.map_map]
    exact List.map_congr_left fun place _ => hentry place
  exact ⟨_, by rw [aligned, hplaces]; rfl⟩

/-- The aligned join is commutative where the join is. -/
theorem aligned_comm {R : α → α → Prop} (hone : join one one = some one)
    (hcomm : ∀ a b, Option.Rel R (join a b) (join b a)) (left right : List α) :
    Option.Rel (List.Forall₂ R) (aligned one join left right) (aligned one join right left) := by
  have hstep : ∀ {s t : List α} {result : List α}, aligned one join s t = some result →
      ∃ other, aligned one join t s = some other ∧ List.Forall₂ R result other := by
    intro s t result h
    obtain ⟨hlength, hplaces⟩ := (aligned_eq_some hone).mp h
    have hjoin : ∀ place, ∃ c, join (fromRight one t place) (fromRight one s place) = some c ∧
        R (fromRight one result place) c := by
      intro place
      have hrel := hcomm (fromRight one s place) (fromRight one t place)
      rw [hplaces place] at hrel
      cases hother : join (fromRight one t place) (fromRight one s place) with
      | none =>
          rw [hother] at hrel
          cases hrel
      | some c =>
          rw [hother] at hrel
          cases hrel with
          | some hr => exact ⟨c, rfl, hr⟩
    obtain ⟨other, hother⟩ := exists_aligned fun place => (hjoin place).imp fun c hc => hc.1
    obtain ⟨hlength', hplaces'⟩ := (aligned_eq_some hone).mp hother
    refine ⟨other, hother, forall₂_of_fromRight one one ?_ fun place => ?_⟩
    · rw [hlength, hlength', Nat.max_comm]
    · obtain ⟨c, hc, hr⟩ := hjoin place
      rw [hplaces' place, Option.some.injEq] at hc
      rwa [hc]
  cases hleft : aligned one join left right with
  | some result =>
      obtain ⟨other, hother, hrel⟩ := hstep hleft
      rw [hother]
      exact .some hrel
  | none =>
      cases hright : aligned one join right left with
      | none => exact .none
      | some result =>
          obtain ⟨other, hother, -⟩ := hstep hright
          rw [hleft] at hother
          cases hother

/-- Two partial results are related as soon as each gives a related other. -/
theorem rel_of_steps {R : α → α → Prop} {left right : Option α}
    (hl : ∀ a, left = some a → ∃ b, right = some b ∧ R a b)
    (hr : ∀ b, right = some b → ∃ a, left = some a) : Option.Rel R left right := by
  cases hleft : left with
  | some a =>
      obtain ⟨b, hb, hrel⟩ := hl a hleft
      rw [hb]
      exact .some hrel
  | none =>
      cases hright : right with
      | none => exact .none
      | some b =>
          obtain ⟨a, ha⟩ := hr b hright
          rw [hleft] at ha
          cases ha

theorem exists_of_rel {R : α → α → Prop} {left right : Option α} (h : Option.Rel R left right) :
    (∀ a, left = some a → ∃ b, right = some b ∧ R a b) ∧
      ∀ b, right = some b → ∃ a, left = some a ∧ R a b := by
  cases h with
  | none => exact ⟨nofun, nofun⟩
  | some hrel =>
      constructor
      · rintro _ ⟨⟩
        exact ⟨_, rfl, hrel⟩
      · rintro _ ⟨⟩
        exact ⟨_, rfl, hrel⟩

/-- The aligned join is associative where the join is. -/
theorem aligned_assoc {R : α → α → Prop} (hone : join one one = some one)
    (hassoc : ∀ a b c, Option.Rel R ((join a b).bind fun d => join d c)
      ((join b c).bind fun d => join a d)) (s t u : List α) :
    Option.Rel (List.Forall₂ R)
      ((aligned one join s t).bind fun d => aligned one join d u)
      ((aligned one join t u).bind fun d => aligned one join s d) := by
  refine rel_of_steps ?_ ?_
  · intro result hresult
    obtain ⟨d, hd, hdu⟩ := Option.bind_eq_some_iff.mp hresult
    obtain ⟨hlen, hplaces⟩ := (aligned_eq_some hone).mp hd
    obtain ⟨hlen', hplaces'⟩ := (aligned_eq_some hone).mp hdu
    have hjoin : ∀ place, ∃ c r, join (fromRight one t place) (fromRight one u place) = some c ∧
        join (fromRight one s place) c = some r ∧ R (fromRight one result place) r := by
      intro place
      obtain ⟨r, hr, hrel⟩ := (exists_of_rel (hassoc (fromRight one s place)
        (fromRight one t place) (fromRight one u place))).1 (fromRight one result place)
        (Option.bind_eq_some_iff.mpr ⟨_, hplaces place, hplaces' place⟩)
      obtain ⟨c, hc, hsc⟩ := Option.bind_eq_some_iff.mp hr
      exact ⟨c, r, hc, hsc, hrel⟩
    obtain ⟨c, hc⟩ := exists_aligned fun place => (hjoin place).imp fun c hc => hc.choose_spec.1
    obtain ⟨hlenc, hplacesc⟩ := (aligned_eq_some hone).mp hc
    have hjoin' : ∀ place, ∃ r, join (fromRight one s place) (fromRight one c place) = some r ∧
        R (fromRight one result place) r := by
      intro place
      obtain ⟨e, r, he, hr, hrel⟩ := hjoin place
      rw [hplacesc place, Option.some.injEq] at he
      exact ⟨r, he ▸ hr, hrel⟩
    obtain ⟨other, hother⟩ := exists_aligned fun place => (hjoin' place).imp fun r hr => hr.1
    obtain ⟨hleno, hplaceso⟩ := (aligned_eq_some hone).mp hother
    refine ⟨other, Option.bind_eq_some_iff.mpr ⟨c, hc, hother⟩,
      forall₂_of_fromRight one one (by omega) fun place => ?_⟩
    obtain ⟨r, hr, hrel⟩ := hjoin' place
    rw [hplaceso place, Option.some.injEq] at hr
    rwa [hr]
  · intro result hresult
    obtain ⟨d, hd, hsd⟩ := Option.bind_eq_some_iff.mp hresult
    obtain ⟨-, hplaces⟩ := (aligned_eq_some hone).mp hd
    obtain ⟨-, hplaces'⟩ := (aligned_eq_some hone).mp hsd
    have hjoin : ∀ place, ∃ c r, join (fromRight one s place) (fromRight one t place) = some c ∧
        join c (fromRight one u place) = some r := by
      intro place
      obtain ⟨r, hr, -⟩ := (exists_of_rel (hassoc (fromRight one s place)
        (fromRight one t place) (fromRight one u place))).2 (fromRight one result place)
        (Option.bind_eq_some_iff.mpr ⟨_, hplaces place, hplaces' place⟩)
      obtain ⟨c, hc, hcr⟩ := Option.bind_eq_some_iff.mp hr
      exact ⟨c, r, hc, hcr⟩
    obtain ⟨c, hc⟩ := exists_aligned fun place => (hjoin place).imp fun c hc => hc.choose_spec.1
    obtain ⟨-, hplacesc⟩ := (aligned_eq_some hone).mp hc
    have hjoin' : ∀ place, ∃ r, join (fromRight one c place) (fromRight one u place) = some r := by
      intro place
      obtain ⟨e, r, he, hr⟩ := hjoin place
      rw [hplacesc place, Option.some.injEq] at he
      exact ⟨r, he ▸ hr⟩
    obtain ⟨other, hother⟩ := exists_aligned hjoin'
    exact ⟨other, Option.bind_eq_some_iff.mpr ⟨c, hc, hother⟩⟩

/-- Aligned joins agree along a partial map that respects the joins. -/
theorem aligned_sound {eval : α → Option β} {one' : β} {join' : β → β → Option β}
    (hone : join one one = some one) (hone' : join' one' one' = some one')
    (hunit : eval one = some one')
    (hsound : ∀ a b c x y z, join a b = some c → eval a = some x → eval b = some y →
      join' x y = some z → eval c = some z)
    {s t r : List α} {x y z : List β} (hr : aligned one join s t = some r)
    (hx : s.mapM eval = some x) (hy : t.mapM eval = some y)
    (hz : aligned one' join' x y = some z) : r.mapM eval = some z := by
  have heval : ∀ {list : List α} {values : List β}, list.mapM eval = some values →
      list.length = values.length ∧ ∀ place,
        eval (fromRight one list place) = some (fromRight one' values place) := by
    intro list values h
    have hmap := mapM_eq_some.mp h
    have hlength : list.length = values.length := by simpa using congrArg List.length hmap
    refine ⟨hlength, fun place => ?_⟩
    by_cases hplace : place < list.length
    · have hvalue : place < values.length := hlength ▸ hplace
      rw [fromRight_of_lt hplace, fromRight_of_lt hvalue]
      have hat := congrArg (fun entries => entries[list.length - 1 - place]?) hmap
      have hin : list.length - 1 - place < list.length := by omega
      have hin' : list.length - 1 - place < values.length := by omega
      simpa [hin, hin', ← hlength] using hat
    · rw [fromRight_of_le (Nat.not_lt.mp hplace),
        fromRight_of_le (hlength ▸ Nat.not_lt.mp hplace), hunit]
  obtain ⟨hlx, hpx⟩ := heval hx
  obtain ⟨hly, hpy⟩ := heval hy
  obtain ⟨hlr, hpr⟩ := (aligned_eq_some hone).mp hr
  obtain ⟨hlz, hpz⟩ := (aligned_eq_some hone').mp hz
  rw [mapM_eq_some]
  have hrz : r.length = z.length := by rw [hlr, hlz, hlx, hly]
  have hlength : (r.map eval).length = (z.map some).length := by simpa using hrz
  refine eq_of_fromRight (some one') hlength fun place => ?_
  have hentry := hsound _ _ _ _ _ _ (hpr place) (hpx place) (hpy place) (hpz place)
  by_cases hplace : place < r.length
  · have hplace' : place < z.length := hrz ▸ hplace
    rw [fromRight_of_lt (by simpa using hplace), fromRight_of_lt (by simpa using hplace')]
    rw [fromRight_of_lt hplace, fromRight_of_lt hplace'] at hentry
    simpa using hentry
  · have hout : (r.map eval).length ≤ place := by simpa using hplace
    rw [fromRight_of_le hout, fromRight_of_le (hlength ▸ hout)]

/-! ### The flat join -/

/-- Equal entries join to the first, and the unit joins to the other. -/
def flatJoin (same : α → α → Bool) (isOne : α → Bool) (a b : α) : Option α :=
  if same a b then some a else if isOne a then some b else if isOne b then some a else none

/-- An equivalence that keeps the unit apart. -/
structure Flat (same : α → α → Bool) (isOne : α → Bool) (one : α) : Prop where
  refl : ∀ a, same a a = true
  symm : ∀ {a b}, same a b = true → same b a = true
  trans : ∀ {a b c}, same a b = true → same b c = true → same a c = true
  isOne_iff : ∀ {a}, isOne a = true ↔ a = one
  unit : ∀ {a}, same one a = true → a = one

namespace Flat

variable {same : α → α → Bool} {isOne : α → Bool}

theorem join_one_left (h : Flat same isOne one) (a : α) : flatJoin same isOne one a = some a := by
  unfold flatJoin
  split
  · rename_i hsame
    rw [h.unit hsame]
  · rw [if_pos (h.isOne_iff.mpr rfl)]

theorem join_one_right (h : Flat same isOne one) (a : α) :
    flatJoin same isOne a one = some a := by
  unfold flatJoin
  split
  · rfl
  · split
    · rename_i hone
      rw [h.isOne_iff.mp hone]
    · rw [if_pos (h.isOne_iff.mpr rfl)]

theorem join_of_ne (h : Flat same isOne one) {a b : α} (ha : a ≠ one) (hb : b ≠ one) :
    flatJoin same isOne a b = if same a b then some a else none := by
  unfold flatJoin
  rw [if_neg fun hone => ha (h.isOne_iff.mp hone), if_neg fun hone => hb (h.isOne_iff.mp hone)]

theorem rel_refl (h : Flat same isOne one) (a : Option α) :
    Option.Rel (fun a b => same a b = true) a a := by
  cases a with
  | none => exact .none
  | some a => exact .some (h.refl a)

theorem comm (h : Flat same isOne one) (a b : α) :
    Option.Rel (fun a b => same a b = true) (flatJoin same isOne a b)
      (flatJoin same isOne b a) := by
  by_cases ha : a = one
  · subst ha
    rw [h.join_one_left, h.join_one_right]
    exact h.rel_refl _
  · by_cases hb : b = one
    · subst hb
      rw [h.join_one_left, h.join_one_right]
      exact h.rel_refl _
    · rw [h.join_of_ne ha hb, h.join_of_ne hb ha]
      by_cases hsame : same a b = true
      · rw [if_pos hsame, if_pos (h.symm hsame)]
        exact .some hsame
      · rw [if_neg hsame, if_neg fun hback => hsame (h.symm hback)]
        exact .none

theorem assoc (h : Flat same isOne one) (a b c : α) :
    Option.Rel (fun a b => same a b = true)
      ((flatJoin same isOne a b).bind fun d => flatJoin same isOne d c)
      ((flatJoin same isOne b c).bind fun d => flatJoin same isOne a d) := by
  by_cases ha : a = one
  · subst ha
    rw [h.join_one_left]
    cases hjoin : flatJoin same isOne b c with
    | none =>
        rw [Option.bind_some, hjoin]
        exact .none
    | some d =>
        rw [Option.bind_some, Option.bind_some, hjoin, h.join_one_left]
        exact h.rel_refl _
  · by_cases hb : b = one
    · subst hb
      rw [h.join_one_right, h.join_one_left]
      exact h.rel_refl _
    · by_cases hc : c = one
      · subst hc
        rw [h.join_one_right, Option.bind_some]
        cases hjoin : flatJoin same isOne a b with
        | none => exact .none
        | some d =>
            rw [Option.bind_some, h.join_one_right]
            exact h.rel_refl _
      · -- no unit: both sides succeed exactly where all three entries are the same
        rw [h.join_of_ne ha hb, h.join_of_ne hb hc]
        by_cases hab : same a b = true
        · rw [if_pos hab, Option.bind_some, h.join_of_ne ha hc]
          by_cases hbc : same b c = true
          · rw [if_pos hbc, Option.bind_some, h.join_of_ne ha hb, if_pos hab,
              if_pos (h.trans hab hbc)]
            exact h.rel_refl _
          · rw [if_neg hbc, if_neg fun hac => hbc (h.trans (h.symm hab) hac)]
            exact .none
        · rw [if_neg hab]
          by_cases hbc : same b c = true
          · rw [if_pos hbc, Option.bind_some, h.join_of_ne ha hb, if_neg hab]
            exact .none
          · rw [if_neg hbc]
            exact .none

end Flat

/-- Equality is flat over each unit. -/
theorem flat_eq [DecidableEq α] (one : α) :
    Flat (fun a b => decide (a = b)) (fun a => decide (a = one)) one where
  refl a := by simp
  symm hab := by simpa [eq_comm] using hab
  trans hab hbc := by
    rw [decide_eq_true_eq] at hab hbc ⊢
    exact hab.trans hbc
  isOne_iff := by simp
  unit h := by simpa [eq_comm] using h

/-- The flat joins agree along a partial map that respects equivalence and unit. -/
theorem flatJoin_sound [DecidableEq β] {same : α → α → Bool} {isOne : α → Bool}
    {eval : α → Option β} {one' : β} (h : Flat same isOne one) (hunit : eval one = some one')
    (hsame : ∀ a b, same a b = true → eval a = eval b) {a b c : α} {x y z : β}
    (hc : flatJoin same isOne a b = some c) (hx : eval a = some x) (hy : eval b = some y)
    (hz : flatJoin (fun a b => decide (a = b)) (fun a => decide (a = one')) x y = some z) :
    eval c = some z := by
  unfold flatJoin at hc
  split at hc
  · rename_i hab
    rw [Option.some.injEq] at hc
    have hxy : x = y := by
      rw [hsame a b hab, hy, Option.some.injEq] at hx
      exact hx.symm
    subst hxy hc
    simp only [flatJoin, decide_true, if_true, Option.some.injEq] at hz
    exact hz ▸ hx
  · split at hc
    · rename_i hone
      rw [Option.some.injEq] at hc
      rw [h.isOne_iff.mp hone, hunit, Option.some.injEq] at hx
      subst hx hc
      rw [(flat_eq one').join_one_left] at hz
      exact hy.trans hz
    · split at hc
      · rename_i hone
        rw [Option.some.injEq] at hc
        rw [h.isOne_iff.mp hone, hunit, Option.some.injEq] at hy
        subst hy hc
        rw [(flat_eq one').join_one_right] at hz
        exact hx.trans hz
      · cases hc

end Broadcast
