import BindingIdl.Declaration.Grammar
import Mathlib.Logic.Basic

/-!
# Clean readings

`Reads p c a next` says that parser `p`, started at cursor `c`, answers `a` at `next` and reports
nothing on the way. A violation that a parser reports and recovers from rules this out, so a chain
of readings never passes through a recovery: `not_reads_report` and `reads_attempt_iff` are where
the recoveries fall away.

Each primitive parser has one equivalence here. `reads_bind_iff` takes a chain apart into its
steps, and `Reads.bind` puts one together. For repetitions, `Collects` lists the steps that are
taken, and `reads_collect_iff` says that the bound on their number is never met as long as each
step takes a token.
-/

namespace BindingIdl

namespace Cursor

/-- The cursor that has moved past `ts` had them ahead of it. -/
def Ahead (c : Cursor) (ts : List Token) (next : Cursor) : Prop := c.rest = ts ++ next.rest

theorem Ahead.refl (c : Cursor) : c.Ahead [] c := rfl

/-- Tokens taken in two goes are taken in one. -/
theorem Ahead.trans {c mid next : Cursor} {ts us : List Token} (h : c.Ahead ts mid)
    (h' : mid.Ahead us next) : c.Ahead (ts ++ us) next := by
  rw [Ahead, h, h', List.append_assoc]

/-- The tokens taken and those left are all that there were. -/
theorem Ahead.length {c next : Cursor} {ts : List Token} (h : c.Ahead ts next) :
    c.rest.length = ts.length + next.rest.length := by
  rw [h, List.length_append]

/-- A token of a kind other than the end of the file is one of those ahead. -/
theorem ahead_advance {c : Cursor} {k : TokenKind} (h : c.kind = k) (hk : k ≠ .endOfFile) :
    c.Ahead [c.current] c.advance ∧ c.current.kind = k := by
  obtain ⟨rest, stop, n⟩ := c
  cases rest with
  | nil => exact absurd h.symm hk
  | cons t ts => exact ⟨rfl, h⟩

@[simp] theorem kind_cons (t : Token) (ts : List Token) (stop : Token) (n : NodeId) :
    (⟨t :: ts, stop, n⟩ : Cursor).kind = t.kind := rfl

/-- Behind the last token stands the end of the file, not a token. -/
theorem atEnd_of_rest_eq_nil {c : Cursor} (h : c.rest = []) : c.atEnd = true := by
  rw [atEnd, kind, h]
  rfl

/-- The file goes on where a namespace is closed. -/
theorem not_atEnd_of_closing {t : Token} {ts : List Token} {stop : Token} {n : NodeId}
    (h : t.kind = .namespaceEnd ∨ t.kind = .closeBrace) :
    ¬(⟨t :: ts, stop, n⟩ : Cursor).atEnd = true := by
  obtain hmarker | hbrace := h
  · simp [atEnd, hmarker]
  · simp [atEnd, hbrace]

/-- A constructor starts with the name of its class. -/
theorem ahead_of_atConstructor {c : Cursor} {owner : String} (h : c.atConstructor owner = true) :
    c.Ahead [c.current] c.advance ∧ c.current.kind = .identifier ∧ c.current.text = owner := by
  obtain ⟨rest, stop, n⟩ := c
  rcases rest with _ | ⟨name, _ | ⟨paren, rest⟩⟩
  · simp [Cursor.atConstructor] at h
  · simp [Cursor.atConstructor] at h
  · simp only [Cursor.atConstructor, Bool.and_eq_true, decide_eq_true_eq] at h
    exact ⟨rfl, h.1.1, h.1.2⟩

end Cursor

namespace Parser

variable {α β : Type} {c mid next : Cursor}

/-- Started at `c`, the parser answers `a` at `next` and has nothing to report. -/
def Reads (p : Parser α) (c : Cursor) (a : α) (next : Cursor) : Prop := p c = ⟨.ok a, [], next⟩

/-! ## Chains -/

/-- What is read in two goes: the second starts where the first one stops. -/
theorem Reads.bind {p : Parser α} {f : α → Parser β} {a : α} {b : β} (h : Reads p c a mid)
    (h' : Reads (f a) mid b next) : Reads (p >>= f) c b next := by
  rw [Reads, bind_of_ok f h, h', List.append_nil]

/-- Behind a clean step the chain goes on as if it started there. -/
theorem Reads.bind_eq {p : Parser α} {a : α} (f : α → Parser β) (h : Reads p c a mid) :
    (p >>= f) c = f a mid := bind_of_ok f h

/-- A chain reads cleanly when both of its parts do. -/
theorem reads_bind_iff {p : Parser α} {f : α → Parser β} {b : β} :
    Reads (p >>= f) c b next ↔ ∃ a mid, Reads p c a mid ∧ Reads (f a) mid b next := by
  constructor
  · intro h
    rcases hp : p c with ⟨outcome, reported, mid⟩
    cases outcome with
    | error d =>
      rw [Reads, bind_of_error f hp] at h
      simp only [Parsed.mk.injEq, reduceCtorEq, false_and] at h
    | ok a =>
      rw [Reads, bind_of_ok f hp] at h
      rcases hf : f a mid with ⟨outcome', reported', next'⟩
      simp only [hf, Parsed.mk.injEq, List.append_eq_nil_iff] at h
      obtain ⟨rfl, ⟨rfl, rfl⟩, rfl⟩ := h
      exact ⟨a, mid, hp, hf⟩
  · rintro ⟨a, mid, h, h'⟩
    exact h.bind h'

theorem reads_pure_iff {a b : α} : Reads (pure a) c b next ↔ b = a ∧ next = c := by
  simp [Reads, pure_apply, eq_comm]

/-! ## Primitives -/

/-- A failing parser reads nothing. A report does not read either: `Reads` is about runs without a
complaint. -/
theorem not_reads_fail {d : Diagnostic} {a : α} : ¬ Reads (fail d) c a next := by
  simp [Reads, fail]

theorem not_reads_refuse {e : Expectation} {a : α} : ¬ Reads (refuse e) c a next := by
  simp [Reads, refuse]

theorem not_reads_report {d : Diagnostic} {u : Unit} : ¬ Reads (report d) c u next := by
  simp [Reads, report]

/-- A condition takes no token; it holds or nothing is read. -/
theorem reads_require_iff {holds : Bool} {d : Diagnostic} {u : Unit} :
    Reads (require holds d) c u next ↔ holds = true ∧ next = c := by
  cases holds with
  | false => simp [require, not_reads_report]
  | true => simp [require, reads_pure_iff]

theorem reads_cursor_iff {a : Cursor} : Reads cursor c a next ↔ a = c ∧ next = c := by
  simp [Reads, cursor, eq_comm]

theorem reads_kind_iff {k : TokenKind} : Reads kind c k next ↔ k = c.kind ∧ next = c := by
  simp [Reads, kind, eq_comm]

theorem reads_span_iff {s : Span} : Reads span c s next ↔ s = c.current.span ∧ next = c := by
  simp [Reads, span, eq_comm]

theorem reads_next_iff {t : Token} :
    Reads Parser.next c t next ↔ t = c.current ∧ next = c.advance := by
  simp [Reads, Parser.next, eq_comm]

/-- The id is the next one that is free, and no token is taken. -/
theorem reads_freshId_iff {n : NodeId} :
    Reads freshId c n next ↔ n = c.nextId ∧ next = { c with nextId := c.nextId + 1 } := by
  simp [Reads, freshId, eq_comm]

/-- Either the token ahead has the kind and is taken, or it has not and stays. -/
theorem reads_accept_iff {k : TokenKind} {o : Option Token} :
    Reads (accept k) c o next ↔
      (c.kind = k ∧ o = some c.current ∧ next = c.advance) ∨
        (c.kind ≠ k ∧ o = none ∧ next = c) := by
  by_cases h : c.kind = k <;> simp [Reads, accept, h, eq_comm]

/-- Here the kind is asked for, so nothing is read without it. -/
theorem reads_expect_iff {k : TokenKind} {e : Expectation} {t : Token} :
    Reads (expect k e) c t next ↔ c.kind = k ∧ t = c.current ∧ next = c.advance := by
  by_cases h : c.kind = k <;> simp [Reads, expect, h, eq_comm]

/-- An attempt reads cleanly also where the parser inside is stopped; it is the report behind it
that then rules the reading out. -/
theorem reads_attempt_iff {p : Parser α} {r : Except Diagnostic α} :
    Reads (attempt p) c r next ↔ p c = ⟨r, [], next⟩ := by
  rcases hp : p c with ⟨outcome, reported, mid⟩
  simp [Reads, attempt, hp]

/-! ### At a given cursor -/

theorem Reads.pure {a : α} : Reads (pure a) c a c := reads_pure_iff.mpr ⟨rfl, rfl⟩

theorem Reads.kind : Reads Parser.kind c c.kind c := reads_kind_iff.mpr ⟨rfl, rfl⟩

theorem Reads.span : Reads Parser.span c c.current.span c := reads_span_iff.mpr ⟨rfl, rfl⟩

theorem Reads.cursor : Reads Parser.cursor c c c := reads_cursor_iff.mpr ⟨rfl, rfl⟩

section

variable {t : Token} {ts : List Token} {stop : Token} {n : NodeId} {k : TokenKind}

theorem Reads.take : Reads Parser.next ⟨t :: ts, stop, n⟩ t ⟨ts, stop, n⟩ :=
  reads_next_iff.mpr ⟨rfl, rfl⟩

theorem Reads.freshId : Reads Parser.freshId ⟨ts, stop, n⟩ n ⟨ts, stop, n + 1⟩ :=
  reads_freshId_iff.mpr ⟨rfl, rfl⟩

theorem Reads.expect {e : Expectation} (h : t.kind = k) :
    Reads (expect k e) ⟨t :: ts, stop, n⟩ t ⟨ts, stop, n⟩ :=
  reads_expect_iff.mpr ⟨h, rfl, rfl⟩

theorem Reads.accept (h : t.kind = k) :
    Reads (accept k) ⟨t :: ts, stop, n⟩ (some t) ⟨ts, stop, n⟩ :=
  reads_accept_iff.mpr (.inl ⟨h, rfl, rfl⟩)

theorem Reads.accept_none (h : c.kind ≠ k) : Reads (Parser.accept k) c none c :=
  reads_accept_iff.mpr (.inr ⟨h, rfl, rfl⟩)

theorem Reads.require {d : Diagnostic} {holds : Bool} (h : holds = true) :
    Reads (require holds d) c () c :=
  reads_require_iff.mpr ⟨h, rfl⟩

end

/-! ## Repetitions -/

/-- The answers of a step that is taken again and again, until it has nothing to add. -/
inductive Collects (step : Parser (Option α)) : Cursor → List α → Cursor → Prop where
  | stop {c next : Cursor} (last : Reads step c none next) : Collects step c [] next
  | more {c mid next : Cursor} {a : α} {as : List α} (first : Reads step c (some a) mid)
      (others : Collects step mid as next) : Collects step c (a :: as) next

/-- Where each step that adds something takes a token, the tokens ahead are enough to bound the
number of steps. The steps need only do so at cursors with a property that they keep. -/
theorem reads_collectWithin_iff {step : Parser (Option α)} (inv : Cursor → Prop)
    (progress : ∀ c a next, inv c → Reads step c (some a) next →
      next.rest.length < c.rest.length ∧ inv next)
    (ahead : List Token) {as : List α} (hc : inv c) (enough : c.rest.length ≤ ahead.length) :
    Reads (collectWithin step ahead) c as next ↔ Collects step c as next := by
  induction ahead generalizing c as with
  | nil =>
    -- with no bound left there are no tokens left, so no step adds anything
    have none_more : ∀ a mid, ¬ Reads step c (some a) mid := by
      intro a mid h
      have := (progress c a mid hc h).1
      simp only [List.length_nil] at enough
      omega
    simp only [collectWithin, reads_bind_iff, reads_pure_iff]
    constructor
    · rintro ⟨o, mid, h, rfl, rfl⟩
      cases o with
      | none => exact .stop h
      | some a => exact absurd h (none_more a _)
    · intro h
      cases h with
      | stop last => exact ⟨none, next, last, rfl, rfl⟩
      | more first => exact absurd first (none_more _ _)
  | cons t ahead ih =>
    -- one step on each side; the rest is the induction hypothesis, one token shorter
    simp only [collectWithin, reads_bind_iff]
    constructor
    · rintro ⟨o, mid, h, h'⟩
      cases o with
      | none =>
        obtain ⟨rfl, rfl⟩ := reads_pure_iff.mp h'
        exact .stop h
      | some a =>
        obtain ⟨as', mid', others, h''⟩ := reads_bind_iff.mp h'
        obtain ⟨rfl, rfl⟩ := reads_pure_iff.mp h''
        obtain ⟨shorter, hmid⟩ := progress c a mid hc h
        simp only [List.length_cons] at enough
        exact .more h ((ih hmid (by omega)).mp others)
    · intro h
      cases h with
      | stop last => exact ⟨none, next, last, reads_pure_iff.mpr ⟨rfl, rfl⟩⟩
      | @more _ mid _ a as' first others =>
        obtain ⟨shorter, hmid⟩ := progress c a mid hc first
        simp only [List.length_cons] at enough
        refine ⟨some a, mid, first, ?_⟩
        exact ((ih hmid (by omega)).mpr others).bind (reads_pure_iff.mpr ⟨rfl, rfl⟩)

/-- `collect` takes step after step until one has nothing to add. -/
theorem reads_collect_iff {step : Parser (Option α)} (inv : Cursor → Prop)
    (progress : ∀ c a next, inv c → Reads step c (some a) next →
      next.rest.length < c.rest.length ∧ inv next)
    {as : List α} (hc : inv c) :
    Reads (collect step) c as next ↔ Collects step c as next :=
  reads_collectWithin_iff inv progress c.rest hc (Nat.le_refl _)

end Parser

end BindingIdl
