import BindingIdl.Proofs.Symbol.Names
import BindingIdl.Proofs.Token.Spelling
import BindingIdl.Declaration

/-!
# What is in a token

Two kinds of token carry a text that the tree keeps: identifiers, and include lines. What the
scanner makes into a token is spelled like one (`Token.Scanned.spells`), and that says what the text
can be: see `Token.Scanned.isIdentifier` and `Token.Scanned.isHeaderPath`.
-/

namespace BindingIdl

namespace Lexeme

variable {cs : List Char}

/-! ## Spellings that the tree keeps -/

/-- An identifier is spelled as a word that is no keyword. -/
theorem Spells.identifier (h : Spells .identifier cs) : ∃ d ds, cs = d :: ds ∧
    isWordStart d = true ∧ (∀ x ∈ ds, isWordRest x = true) ∧
      TokenKind.keyword? (String.ofList cs) = none := by
  cases h with
  | @word _ d ds hkind hd hds =>
    refine ⟨d, ds, rfl, hd, hds, ?_⟩
    cases hkey : TokenKind.keyword? (String.ofList (d :: ds)) with
    | none => rfl
    | some kind =>
      rw [hkey] at hkind
      obtain rfl : kind = .identifier := hkind
      exact absurd hkey keyword?_ne_identifier
  | mark hkind => exact absurd (hkind ▸ single_mem _) (by decide)

/-- The path of an include line stands between its only brackets. -/
theorem Spells.includeLine_path (h : Spells .includeLine cs) : ∃ front path,
    cs = front ++ '<' :: (path ++ ['>']) ∧ '<' ∉ front ∧ '>' ∉ path ∧ '\n' ∉ path := by
  cases h with
  | word hkind => exact absurd (hkind ▸ keyword?_getD_mem _) (by decide)
  | mark hkind => exact absurd (hkind ▸ single_mem _) (by decide)
  | @includeLine front behind path hfront hbehind hclosed hline =>
    refine ⟨'#' :: (front ++ (includeWord ++ behind)), path, by simp, ?_, hclosed, hline⟩
    have hblank : ¬ isInlineBlank '<' = true := by decide
    simp only [List.mem_cons, List.mem_append, not_or]
    exact ⟨by decide, fun hmem => hblank (hfront _ hmem), by decide,
      fun hmem => hblank (hbehind _ hmem)⟩

end Lexeme

/-! ## Tokens of a text -/

/-- The token is what the scanner makes of some characters. -/
def Token.Scanned (t : Token) : Prop :=
  ∃ c cs, (Lexeme.ofHead c cs).role = .token t.kind ∧
    t.text = String.ofList (c :: cs.take (Lexeme.ofHead c cs).more)

/-- By induction on the characters: each token is what one rule made of some of them. -/
theorem Scan.scanned_of_mem_walk {n : Nat} {p : Position} {cs : List Char} {t : Token}
    (h : t ∈ (walk n p cs).tokens) : t.Scanned := by
  induction cs generalizing n p with
  | nil => cases n <;> cases h
  | cons c cs ih =>
    cases n with
    | succ n => exact ih h
    | zero =>
      rw [walk] at h
      split at h
      · exact ih h
      · split at h
        · exact ih h
        · rename_i kind hrole _
          obtain rfl | h := List.mem_cons.mp h
          · exact ⟨c, cs, hrole, rfl⟩
          · exact ih h
      · cases h

/-- All tokens of a text but the last are scanned. -/
theorem Token.scanned_of_ofText {text : String} {ts : List Token} (h : Token.ofText text = .ok ts)
    {t : Token} (ht : t ∈ ts) (hend : t.kind ≠ .endOfFile) : t.Scanned := by
  unfold Token.ofText at h
  dsimp only at h
  split at h
  · cases h
  · obtain rfl := Except.ok.inj h
    obtain ht | rfl := List.mem_append.mp ht |>.imp_right List.mem_singleton.mp
    · exact Scan.scanned_of_mem_walk ht
    · exact absurd rfl hend

theorem Token.Scanned.spells {t : Token} (h : t.Scanned) (hseen : t.kind.isTrivia = false) :
    Lexeme.Spells t.kind t.text.toList := by
  obtain ⟨c, cs, hrole, htext⟩ := h
  rw [htext, String.toList_ofList]
  exact Lexeme.spells_taken hrole hseen

theorem Token.Scanned.isIdentifier {t : Token} (h : t.Scanned) (hk : t.kind = .identifier) :
    isIdentifier t.text = true := by
  have hspells := h.spells (by rw [hk]; rfl)
  rw [hk] at hspells
  obtain ⟨d, ds, htext, hd, hds, hkey⟩ := hspells.identifier
  rw [String.ofList_toList] at hkey
  exact isIdentifier_iff.mpr ⟨d, ds, htext, hd, hds, hkey⟩

/-! ## Header paths -/

/-- What may stand between the brackets of an include line once blanks at the ends are gone. -/
structure IsHeaderPath (path : String) : Prop where
  closed : '>' ∉ path.toList
  line : '\n' ∉ path.toList
  trimmed : Text.trim path.toList = path.toList

theorem Text.mem_of_mem_trim {c : Char} {cs : List Char} (h : c ∈ trim cs) : c ∈ cs := by
  rw [trim, List.mem_reverse] at h
  exact List.dropWhile_subset _ (List.mem_reverse.mp (List.dropWhile_subset _ h))

theorem Text.trim_trim (cs : List Char) : trim (trim cs) = trim cs := by
  have not_blank (ds : List Char) {c : Char} (hc : c ∈ (ds.dropWhile isBlank).head?) :
      isBlank c = false := by
    have := List.head?_dropWhile_not isBlank ds
    rw [hc] at this
    simpa using this
  refine trim_eq_self_of_ends (fun c hc => ?_) fun c hc => ?_
  · -- what is left in front is what the first removal left there
    have htrim : trim cs <+: cs.dropWhile isBlank := by
      rw [trim, ← List.reverse_reverse (cs.dropWhile isBlank), List.reverse_prefix]
      simpa using List.dropWhile_suffix isBlank
    obtain ⟨rest, hrest⟩ := htrim
    refine not_blank cs ?_
    rw [← hrest, List.head?_append, hc]
    rfl
  · rw [trim, List.getLast?_reverse] at hc
    exact not_blank _ hc

/-- The path in an include line has no blanks at its ends, since it is trimmed when it is read. -/
theorem Token.Scanned.isHeaderPath {t : Token} (h : t.Scanned) (hk : t.kind = .includeLine) :
    IsHeaderPath (IncludeOverride.pathOf t.text) := by
  have hspells := h.spells (by rw [hk]; rfl)
  rw [hk] at hspells
  obtain ⟨front, inside, htext, hfront, hclose, hline⟩ := hspells.includeLine_path
  -- no bracket before the one that opens, so that is where the text is cut
  have hdrop : (t.text.toList.dropWhile (· ≠ '<')).drop 1 = inside ++ ['>'] := by
    have before : ∀ d ∈ front, decide (d ≠ '<') = true := fun d hd =>
      decide_eq_true fun heq => hfront (heq ▸ hd)
    rw [htext, List.dropWhile_append_of_pos before]
    rfl
  have hpath : IncludeOverride.pathOf t.text = String.ofList (Text.trim inside) := by
    rw [IncludeOverride.pathOf, hdrop]
    simp
  rw [hpath]
  constructor
  · rw [String.toList_ofList]
    exact fun hmem => hclose (Text.mem_of_mem_trim hmem)
  · rw [String.toList_ofList]
    exact fun hmem => hline (Text.mem_of_mem_trim hmem)
  · rw [String.toList_ofList, Text.trim_trim]

end BindingIdl
