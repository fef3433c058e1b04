import BindingIdl.Name
import BindingIdl.Token.Lexeme

/-!
# Names and their texts

Everything looks classes up by the text of their path. That this finds the class of the path, and
no other, rests on the segments: an identifier has no colon in it, so the text of a path can be cut
back into the segments it was made of.
-/

namespace BindingIdl

/-- What the scanner reads as one identifier. -/
def isIdentifier (s : String) : Bool :=
  match s.toList with
  | [] => false
  | c :: cs => Lexeme.isWordStart c && cs.all Lexeme.isWordRest && (TokenKind.keyword? s).isNone

/-- An identifier is a word that is no keyword. -/
theorem isIdentifier_iff {s : String} :
    isIdentifier s = true ↔ ∃ c cs, s.toList = c :: cs ∧ Lexeme.isWordStart c = true ∧
      (∀ d ∈ cs, Lexeme.isWordRest d = true) ∧ TokenKind.keyword? s = none := by
  rw [isIdentifier]
  cases s.toList with
  | nil => simp
  | cons c cs => simp [and_assoc]

theorem Lexeme.isWordRest_of_isWordStart {c : Char} (h : isWordStart c = true) :
    isWordRest c = true := by
  simp only [isWordStart, isWordRest, Char.isAlphanum, Bool.or_eq_true] at h ⊢
  exact h.imp_left .inl

/-- No identifier has a colon in it, so a path can be taken apart again. -/
theorem colon_notMem_of_isIdentifier {s : String} (h : isIdentifier s = true) :
    ':' ∉ s.toList := by
  obtain ⟨c, cs, hs, hc, hcs, -⟩ := isIdentifier_iff.mp h
  have not_rest : Lexeme.isWordRest ':' = false := by decide
  intro hmem
  rw [hs] at hmem
  obtain rfl | hmem := List.mem_cons.mp hmem
  · exact absurd (Lexeme.isWordRest_of_isWordStart hc) (by rw [not_rest]; decide)
  · exact absurd (hcs _ hmem) (by rw [not_rest]; decide)

/-- A list is cut at its first colon in one way. -/
theorem append_colon_inj {a b x y : List Char} (ha : ':' ∉ a) (hb : ':' ∉ b)
    (h : a ++ ':' :: x = b ++ ':' :: y) : a = b ∧ x = y := by
  induction a generalizing b with
  | nil =>
    cases b with
    | nil => exact ⟨rfl, (List.cons.inj h).2⟩
    | cons d b => exact absurd ((List.cons.inj h).1 ▸ List.mem_cons_self) hb
  | cons c a ih =>
    cases b with
    | nil => exact absurd ((List.cons.inj h).1 ▸ List.mem_cons_self) ha
    | cons d b =>
      rw [List.mem_cons, not_or] at ha hb
      obtain ⟨hcd, htail⟩ := List.cons.inj h
      obtain ⟨rfl, hxy⟩ := ih ha.2 hb.2 htail
      exact ⟨by rw [hcd], hxy⟩

namespace QualifiedName

/-- Every segment is an identifier. -/
def Wellformed (q : QualifiedName) : Prop := ∀ s ∈ q.segments, isIdentifier s = true

instance (q : QualifiedName) : Decidable q.Wellformed :=
  inferInstanceAs (Decidable (∀ s ∈ q.segments, isIdentifier s = true))

theorem Wellformed.name {q : QualifiedName} (h : q.Wellformed) : isIdentifier q.name = true :=
  h _ (by simp [segments])

/-- A path is well formed if each of its segments is an identifier. -/
theorem wellformed_mk_iff {spaces : List String} {name : String} :
    Wellformed ⟨spaces, name⟩ ↔
      (∀ s ∈ spaces, isIdentifier s = true) ∧ isIdentifier name = true := by
  simp [Wellformed, segments, or_imp, forall_and]

theorem eq_bare (q : QualifiedName) (h : q.isQualified = false) : q = bare q.name := by
  obtain ⟨spaces, name⟩ := q
  cases spaces with
  | nil => rfl
  | cons => cases h

theorem wellformed_bare {name : String} (h : isIdentifier name = true) : (bare name).Wellformed :=
  wellformed_mk_iff.mpr ⟨by simp, h⟩

/-- The text of a path begins with its outermost namespace. -/
theorem toList_text_cons (space : String) (spaces : List String) (name : String) :
    (text ⟨space :: spaces, name⟩).toList =
      space.toList ++ ':' :: ':' :: (text ⟨spaces, name⟩).toList := by
  simp [text_cons]

/-- Names with different segments are spelled differently. -/
theorem text_injective {p q : QualifiedName} (hp : p.Wellformed) (hq : q.Wellformed)
    (h : p.text = q.text) : p = q := by
  obtain ⟨ps, a⟩ := p
  obtain ⟨qs, b⟩ := q
  have colon_mem (s : String) (spaces : List String) (name : String) :
      ':' ∈ (text ⟨s :: spaces, name⟩).toList := by
    simp [toList_text_cons]
  rw [wellformed_mk_iff] at hp hq
  induction ps generalizing qs with
  | nil =>
    cases qs with
    | nil => rw [show a = b from h]
    | cons s qs =>
      have hmem := colon_mem s qs b
      rw [← h] at hmem
      exact absurd hmem (colon_notMem_of_isIdentifier hp.2)
  | cons r ps ih =>
    cases qs with
    | nil =>
      have hmem := colon_mem r ps a
      rw [h] at hmem
      exact absurd hmem (colon_notMem_of_isIdentifier hq.2)
    | cons s qs =>
      -- both texts are cut at their first colon
      have hlist := congrArg String.toList h
      rw [toList_text_cons, toList_text_cons] at hlist
      have hr := colon_notMem_of_isIdentifier (hp.1 r List.mem_cons_self)
      have hs := colon_notMem_of_isIdentifier (hq.1 s List.mem_cons_self)
      obtain ⟨hrs, hrest⟩ := append_colon_inj hr hs hlist
      have hrs : r = s := String.toList_injective hrs
      have htext : text ⟨ps, a⟩ = text ⟨qs, b⟩ :=
        String.toList_injective (List.cons.inj hrest).2
      have hps := ih ⟨fun t ht => hp.1 t (List.mem_cons_of_mem _ ht), hp.2⟩ qs
        ⟨fun t ht => hq.1 t (List.mem_cons_of_mem _ ht), hq.2⟩ htext
      rw [QualifiedName.mk.injEq] at hps ⊢
      exact ⟨by rw [hrs, hps.1], hps.2⟩

end QualifiedName

end BindingIdl
