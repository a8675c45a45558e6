import SymReloc.Frontend.Normalize
import Std.Data.String.ToInt

/-!
# The texts that order frontend expressions

A symbol's name is an identifier, so that the printed text of an expression tells where each
operand ends: different expressions have different texts, and sorting by them depends on the
terms alone.
-/

namespace SymReloc.Frontend.Expr

/-! ### Symbol names -/

/-- `str.isidentifier` of an ASCII string. -/
def isIdentifier (name : String) : Bool :=
  match name.toList with
  | [] => false
  | first :: rest =>
      (first.isAlpha || first = '_') && rest.all fun c => c.isAlphanum || c = '_'

/-- What `Symbol.__post_init__` admits, at every symbol. -/
def Valid : Expr → Prop
  | const _ => True
  | symbol name => isIdentifier name = true
  | add lhs rhs => lhs.Valid ∧ rhs.Valid
  | mul lhs rhs => lhs.Valid ∧ rhs.Valid
  | floorDiv lhs _ _ => lhs.Valid
  | mod lhs _ _ => lhs.Valid

theorem quote_notMem_of_isIdentifier {name : String} (h : isIdentifier name = true) :
    '\'' ∉ name.toList := by
  intro hmem
  unfold isIdentifier at h
  cases hname : name.toList with
  | nil =>
      rw [hname] at hmem
      cases hmem
  | cons first rest =>
      rw [hname] at h hmem
      simp only [Bool.and_eq_true, List.all_eq_true] at h
      rcases List.mem_cons.mp hmem with rfl | hrest
      · exact absurd h.1 (by decide)
      · exact absurd (h.2 _ hrest) (by decide)

/-! ### Texts -/

theorem paren_notMem_toString (value : Int) : ')' ∉ (toString value).toList := by
  have hnat : ∀ n : Nat, ')' ∉ n.repr.toList := by
    intro n hmem
    rw [Nat.toList_repr] at hmem
    exact absurd (Nat.isDigit_of_mem_toDigits (by decide) (by decide) hmem) (by decide)
  cases value with
  | ofNat n => exact hnat n
  | negSucc n =>
      intro hmem
      have htext : toString (Int.negSucc n) = "-" ++ (n + 1).repr := rfl
      rw [htext, String.toList_append] at hmem
      rcases List.mem_append.mp hmem with h | h
      · exact absurd h (by decide)
      · exact hnat (n + 1) h

/-- What stands before the first `mark` and what stands after it. -/
theorem append_mark_inj {mark : Char} {left right t u : List Char} (hleft : mark ∉ left)
    (hright : mark ∉ right) (h : left ++ mark :: t = right ++ mark :: u) :
    left = right ∧ t = u := by
  induction left generalizing right with
  | nil =>
      cases right with
      | nil => simpa using h
      | cons c rest =>
          obtain ⟨rfl, -⟩ := List.cons.inj h
          exact absurd List.mem_cons_self hright
  | cons c rest ih =>
      cases right with
      | nil =>
          obtain ⟨rfl, -⟩ := List.cons.inj h
          exact absurd List.mem_cons_self hleft
      | cons d rest' =>
          obtain ⟨rfl, htail⟩ := List.cons.inj h
          obtain ⟨rfl, hrest⟩ := ih (fun hm => hleft (List.mem_cons_of_mem _ hm))
            (fun hm => hright (List.mem_cons_of_mem _ hm)) htail
          exact ⟨rfl, hrest⟩

/-- An integer before a parenthesis is read back. -/
theorem toString_paren_inj {a b : Int} {t u : List Char}
    (h : (toString a).toList ++ ')' :: t = (toString b).toList ++ ')' :: u) :
    a = b ∧ t = u := by
  obtain ⟨htext, hrest⟩ :=
    append_mark_inj (paren_notMem_toString a) (paren_notMem_toString b) h
  exact ⟨Int.repr_inj.mp (String.toList_inj.mp htext), hrest⟩

/-- The text of an expression tells where it ends. -/
theorem text_append_inj {a b : Expr} (ha : a.Valid) (hb : b.Valid) {t u : List Char}
    (h : a.text.toList ++ t = b.text.toList ++ u) : a = b ∧ t = u := by
  induction a generalizing b t u with
  | const value =>
      cases b <;> simp [text] at h
      obtain ⟨rfl, hrest⟩ := toString_paren_inj h
      exact ⟨rfl, hrest⟩
  | symbol name =>
      cases b <;> simp [text] at h
      obtain ⟨hname, hrest⟩ := append_mark_inj (quote_notMem_of_isIdentifier ha)
        (quote_notMem_of_isIdentifier hb) h
      exact ⟨congrArg symbol (String.toList_inj.mp hname), by simpa using hrest⟩
  | add lhs rhs ihl ihr =>
      cases b <;> simp [text] at h
      obtain ⟨rfl, hmiddle⟩ := ihl ha.1 hb.1 h
      simp at hmiddle
      obtain ⟨rfl, hrest⟩ := ihr ha.2 hb.2 hmiddle
      exact ⟨rfl, by simpa using hrest⟩
  | mul lhs rhs ihl ihr =>
      cases b <;> simp [text] at h
      obtain ⟨rfl, hmiddle⟩ := ihl ha.1 hb.1 h
      simp at hmiddle
      obtain ⟨rfl, hrest⟩ := ihr ha.2 hb.2 hmiddle
      exact ⟨rfl, by simpa using hrest⟩
  | floorDiv lhs divisor positive ih =>
      cases b with
      | floorDiv other d pos =>
          simp [text] at h
          obtain ⟨rfl, hmiddle⟩ := ih (b := other) ha hb h
          simp at hmiddle
          obtain ⟨rfl, hrest⟩ := toString_paren_inj hmiddle
          exact ⟨rfl, hrest⟩
      | _ => simp [text] at h
  | mod lhs divisor positive ih =>
      cases b with
      | mod other d pos =>
          simp [text] at h
          obtain ⟨rfl, hmiddle⟩ := ih (b := other) ha hb h
          simp at hmiddle
          obtain ⟨rfl, hrest⟩ := toString_paren_inj hmiddle
          exact ⟨rfl, hrest⟩
      | _ => simp [text] at h

theorem text_inj {a b : Expr} (ha : a.Valid) (hb : b.Valid) (h : a.text = b.text) : a = b :=
  (text_append_inj (t := []) (u := []) ha hb (by rw [h])).1

/-! ### Sorting -/

theorem sortTerms_perm (terms : List Expr) : (sortTerms terms).Perm terms :=
  List.perm_insertionSort _ _

theorem pairwise_sortTerms (terms : List Expr) :
    (sortTerms terms).Pairwise fun a b => a.text ≤ b.text :=
  haveI : IsTrans Expr fun a b => a.text ≤ b.text := ⟨fun _ _ _ => le_trans⟩
  haveI : Std.Total fun a b : Expr => a.text ≤ b.text := ⟨fun _ _ => le_total _ _⟩
  List.pairwise_insertionSort _ _

/-- A sorted list of valid terms is the sorting of each of its orders. -/
theorem sortTerms_eq_of_perm {terms sorted : List Expr} (hvalid : ∀ e ∈ terms, e.Valid)
    (hperm : terms.Perm sorted) (hsorted : sorted.Pairwise fun a b => a.text ≤ b.text) :
    sortTerms terms = sorted := by
  have hall : (sortTerms terms).Perm sorted := (sortTerms_perm terms).trans hperm
  refine hall.eq_of_pairwise ?_ (pairwise_sortTerms terms) hsorted
  intro a b ha hb hab hba
  exact text_inj (hvalid a ((sortTerms_perm terms).mem_iff.mp ha))
    (hvalid b (hperm.mem_iff.mpr hb)) (le_antisymm hab hba)

theorem sortTerms_perm_eq {left right : List Expr} (hvalid : ∀ e ∈ left, e.Valid)
    (hperm : left.Perm right) : sortTerms left = sortTerms right :=
  sortTerms_eq_of_perm hvalid (hperm.trans (sortTerms_perm right).symm)
    (pairwise_sortTerms right)

end SymReloc.Frontend.Expr
