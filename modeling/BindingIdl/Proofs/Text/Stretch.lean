import BindingIdl.Span
import Mathlib.Data.List.Infix

/-!
# Stretches of a text

A `Stretch` of a text is one way to cut the text in three: what stands before a part, the part, and
what stands behind it. Its ends are between characters by construction, and its span is the one that
a reader finds who comes to the part from the beginning of the text: the bytes before it, the bytes
up to its end, and the line it starts on.

A span is good for a text when it is the span of one of the text's stretches. The spans that a
reader makes on the way are (`Stretch.Stands.exists_stretch`), and so is the cover of two of them
(`Stretch.exists_span_cover`), whichever of the two comes first and whether or not they meet.
-/

namespace BindingIdl

/-- A part of a text, between what stands before it and what stands behind it. -/
structure Stretch (text : String) where
  before : String
  part : String
  behind : String
  whole : before ++ part ++ behind = text

namespace Position

/-- Characters move a position by their bytes and by their line ends. -/
theorem afterAll_eq (p : Position) (cs : List Char) :
    p.afterAll cs = ⟨p.offset + (String.ofList cs).utf8ByteSize, p.line + cs.count '\n'⟩ := by
  induction cs generalizing p with
  | nil => simp
  | cons c cs ih =>
    have hsplit : String.ofList (c :: cs) = String.singleton c ++ String.ofList cs := by
      apply String.toList_injective
      simp
    rw [afterAll_cons, ih, hsplit, String.utf8ByteSize_append, String.utf8ByteSize_singleton,
      List.count_cons]
    by_cases hc : c = '\n' <;> simp [after, hc] <;> omega

/-- Reading on never leads back, and only reading nothing leads nowhere. -/
theorem offset_lt_afterAll (p : Position) {cs : List Char} (h : cs ≠ []) :
    p.offset < (p.afterAll cs).offset := by
  have hsize : (String.ofList cs).utf8ByteSize ≠ 0 := by
    simpa [String.utf8ByteSize_eq_zero_iff] using h
  rw [afterAll_eq]
  dsimp only
  omega

theorem offset_le_afterAll (p : Position) (cs : List Char) :
    p.offset ≤ (p.afterAll cs).offset := by
  rw [afterAll_eq]
  exact Nat.le_add_right _ _

end Position

namespace Stretch

variable {text : String}

/-- Where the stretch begins, in bytes. -/
def start (s : Stretch text) : Nat := s.before.utf8ByteSize

/-- Where it ends, in bytes. -/
def stop (s : Stretch text) : Nat := (s.before ++ s.part).utf8ByteSize

/-- The line of the stretch: one more than the line ends before it. -/
def line (s : Stretch text) : Nat := 1 + s.before.toList.count '\n'

/-- The span of a stretch is what a reader finds who stands at its beginning. -/
def span (s : Stretch text) : Span := ⟨s.start, s.stop, s.line⟩

theorem start_le_stop (s : Stretch text) : s.start ≤ s.stop := by
  rw [start, stop, String.utf8ByteSize_append]
  exact Nat.le_add_right _ _

theorem stop_le (s : Stretch text) : s.stop ≤ text.utf8ByteSize := by
  have hsize := congrArg String.utf8ByteSize s.whole
  rw [String.utf8ByteSize_append] at hsize
  rw [stop]
  omega

theorem toList_whole (s : Stretch text) :
    s.before.toList ++ s.part.toList ++ s.behind.toList = text.toList := by
  rw [← String.toList_append, ← String.toList_append, s.whole]

/-! ## Stretches that a reader passes over -/

/-- The stretch over `part`, for a reader of a text's characters. -/
def ofChars (before part behind : List Char) (h : before ++ part ++ behind = text.toList) :
    Stretch text where
  before := String.ofList before
  part := String.ofList part
  behind := String.ofList behind
  whole := by
    apply String.toList_injective
    rw [← h, ← String.ofList_append, ← String.ofList_append, String.toList_ofList]

/-- A part of the characters has the span that a reader gives it. -/
theorem span_ofChars {before part behind : List Char}
    (h : before ++ part ++ behind = text.toList) :
    (ofChars before part behind h).span = (Position.origin.afterAll before).spanOf part := by
  simp [span, start, stop, line, ofChars, Position.spanOf, Position.afterAll_eq, Position.origin]

/-- A reader of the text stands at `p`, with `ahead` still to read. -/
def Stands (text : String) (p : Position) (ahead : List Char) : Prop :=
  ∃ before, before ++ ahead = text.toList ∧ Position.origin.afterAll before = p

theorem stands_origin (text : String) : Stands text .origin text.toList := ⟨[], rfl, rfl⟩

/-- Behind a part that is read, the reader stands further on. -/
theorem Stands.advance {p : Position} {part behind : List Char}
    (h : Stands text p (part ++ behind)) : Stands text (p.afterAll part) behind := by
  obtain ⟨before, hwhole, rfl⟩ := h
  exact ⟨before ++ part, by rw [List.append_assoc, hwhole], Position.afterAll_append _ _ _⟩

/-- What is read from where a reader stands is a stretch of the text. -/
theorem Stands.exists_stretch {p : Position} {part behind : List Char}
    (h : Stands text p (part ++ behind)) : ∃ s : Stretch text, s.span = p.spanOf part ∧
      s.part = String.ofList part ∧ s.behind = String.ofList behind := by
  obtain ⟨before, hwhole, rfl⟩ := h
  rw [← List.append_assoc] at hwhole
  exact ⟨ofChars before part behind hwhole, span_ofChars hwhole, rfl, rfl⟩

/-- When nothing is ahead, the whole text is behind. -/
theorem Stands.eq_of_nil {p : Position} (h : Stands text p []) :
    p = ⟨text.utf8ByteSize, 1 + text.toList.count '\n'⟩ := by
  obtain ⟨before, hwhole, rfl⟩ := h
  rw [List.append_nil] at hwhole
  rw [hwhole, Position.afterAll_eq, String.ofList_toList]
  simp [Position.origin]

/-! ## Two stretches of one text -/

/-- Of two beginnings of one text, the one with fewer bytes is the beginning of the other. -/
theorem prefix_of_size_le {a b cs : List Char} (ha : a <+: cs) (hb : b <+: cs)
    (h : (String.ofList a).utf8ByteSize ≤ (String.ofList b).utf8ByteSize) : a <+: b := by
  obtain hab | ⟨rest, rfl⟩ := List.prefix_or_prefix_of_prefix ha hb
  · exact hab
  · rw [String.ofList_append, String.utf8ByteSize_append] at h
    have hrest : (String.ofList rest).utf8ByteSize = 0 := by omega
    obtain rfl : rest = [] := by simpa [String.utf8ByteSize_eq_zero_iff] using hrest
    rw [List.append_nil]

theorem before_prefix (s : Stretch text) : s.before.toList <+: text.toList :=
  ⟨s.part.toList ++ s.behind.toList, by rw [← List.append_assoc, s.toList_whole]⟩

theorem through_prefix (s : Stretch text) : s.before.toList ++ s.part.toList <+: text.toList :=
  ⟨s.behind.toList, s.toList_whole⟩

/-- From the beginning of one stretch to the end of a stretch that does not end before it. -/
theorem exists_span_through (s t : Stretch text) (h : s.start ≤ t.stop) :
    ∃ u : Stretch text, u.span = ⟨s.start, t.stop, s.line⟩ := by
  have hsize : (String.ofList s.before.toList).utf8ByteSize ≤
      (String.ofList (t.before.toList ++ t.part.toList)).utf8ByteSize := by
    simpa [start, stop] using h
  obtain ⟨part, hpart⟩ := prefix_of_size_le s.before_prefix t.through_prefix hsize
  refine ⟨ofChars s.before.toList part t.behind.toList (by rw [hpart, t.toList_whole]), ?_⟩
  have hstop : (s.before ++ String.ofList part).utf8ByteSize = t.stop := by
    rw [stop]
    congr 1
    apply String.toList_injective
    simpa using hpart
  simpa [span, start, line, stop, ofChars] using hstop

/-- The cover of two stretches is a stretch. -/
theorem exists_span_cover (s t : Stretch text) :
    ∃ u : Stretch text, u.span = s.span.cover t.span := by
  obtain ⟨first, hstart, hline⟩ : ∃ first : Stretch text, first.start = min s.start t.start ∧
      first.line = (s.span.cover t.span).line := by
    by_cases h : s.start ≤ t.start
    · exact ⟨s, (min_eq_left h).symm, (if_pos h).symm⟩
    · exact ⟨t, (min_eq_right (Nat.le_of_not_le h)).symm, (if_neg h).symm⟩
  obtain ⟨last, hstop⟩ : ∃ last : Stretch text, last.stop = max s.stop t.stop := by
    obtain h | h := le_total s.stop t.stop
    · exact ⟨t, (max_eq_right h).symm⟩
    · exact ⟨s, (max_eq_left h).symm⟩
  have hle : first.start ≤ last.stop := by
    have hs := s.start_le_stop
    omega
  obtain ⟨u, hu⟩ := exists_span_through first last hle
  exact ⟨u, by rw [hu, hstart, hstop, hline]; rfl⟩

end Stretch

end BindingIdl
