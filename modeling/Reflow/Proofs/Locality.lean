import Reflow.Language.Table
import Reflow.Proofs.Comment.Block

/-!
Rewrapping is local. A line of code is never part of a comment, so what stands in front of it and
what stands behind it are rewrapped as if each stood alone. The one thing that reaches over it is a
block comment that is opened in front of it and not closed there.
-/

namespace Reflow

namespace Segment

/-- The lines of a source text that are in no comment, together with those of a comment that is
never closed. -/
def codeLines (lang : Language) (lines : List Text) : List Text :=
  (ofSource lang lines).flatMap fun s => if s.isComment then [] else s.lines

/-- Every block comment that the scan of the lines meets is closed among them. A comment that is not
is code, and so is the line that opens it. -/
def IsClosed (lang : Language) (lines : List Text) : Prop :=
  ∀ l ∈ codeLines lang lines, block? lang l = none

instance (lang : Language) (lines : List Text) : Decidable (IsClosed lang lines) :=
  List.decidableBAll _ _

/-- Code is read line by line, as the steps of the scan ask for. -/
theorem codeLines_reads_code (s : Segment) (hs : s.kind = .code) :
    (if s.isComment then [] else s.lines) = s.lines.flatMap fun l => [l] := by
  simp [isComment, hs]

namespace IsClosed

variable {lang : Language} {line : Text} {rest : List Text}

theorem drop_block {o : Opening} {closing : Text} {more : Nat} (h : IsClosed lang (line :: rest))
    (hBlock : block? lang line = some (o, closing))
    (hMore : blockMore? o closing rest = some more) : IsClosed lang (rest.drop more) := by
  rw [IsClosed, codeLines, ofSource_block hBlock hMore] at h
  exact h

/-- Among closed lines, a comment that is opened is closed. -/
theorem closes {o : Opening} {closing : Text} (h : IsClosed lang (line :: rest))
    (hBlock : block? lang line = some (o, closing)) : blockMore? o closing rest ≠ none := by
  intro hMore
  rw [IsClosed, codeLines, flatMap_ofSource_unclosed codeLines_reads_code hBlock hMore] at h
  have hNone := h line (by simp)
  rw [hBlock] at hNone
  cases hNone

theorem drop_run {indent marker : Text} (h : IsClosed lang (line :: rest))
    (hBlock : block? lang line = none) (hMatch : matchLine? lang line = some (indent, marker)) :
    IsClosed lang (restAfter lang indent marker rest) := by
  rw [IsClosed, codeLines, ofSource_run hBlock hMatch] at h
  exact h

/-- Behind a line of code, closed lines are closed again. Behind a comment they are, too, which the
lemmas above say. -/
theorem drop_code (h : IsClosed lang (line :: rest)) (hBlock : block? lang line = none)
    (hMatch : matchLine? lang line = none) : IsClosed lang rest := by
  rw [IsClosed, codeLines, flatMap_ofSource_code codeLines_reads_code hBlock hMatch] at h
  intro l hl
  exact h l (List.mem_append_right _ hl)

end IsClosed

end Segment

namespace Source

open Segment

/-- A line that starts no comment divides a source text into two that are rewrapped each on its own,
if every block comment that is opened in front of it is closed there. -/
theorem renderLines_append_cons (L : Layout) {lang : Language} {d : Text}
    (hCode : startsComment lang d = false) {xs : List Text} (hClosed : IsClosed lang xs)
    (ys : List Text) :
    renderLines L lang (xs ++ d :: ys) = renderLines L lang xs ++ d :: renderLines L lang ys := by
  obtain ⟨hOpening, hMatch⟩ : opening? lang d = none ∧ matchLine? lang d = none := by
    simpa [startsComment] using hCode
  have hBlock : block? lang d = none := by
    rw [block?, hOpening]
    rfl
  induction xs using lines_induction lang with
  | nil =>
      rw [List.nil_append, renderLines_nil, List.nil_append]
      exact renderLines_code hBlock hMatch
  | block line rest o closing more hOpen hMore ih =>
      rw [List.cons_append, renderLines_block_append hOpen hMore,
        ih (hClosed.drop_block hOpen hMore), renderLines_block hOpen hMore, List.append_assoc]
  | unclosed line rest o closing hOpen hMore => exact absurd hMore (hClosed.closes hOpen)
  | run line rest indent marker hNone hComment ih =>
      -- The run ends in front of `d`, if not before.
      have hStop : ∀ l, (d :: ys).head? = some l → matchLine? lang l = none := by
        intro l hl
        rw [← Option.some.inj hl, hMatch]
      rw [List.cons_append, renderLines_run_append hNone hComment hStop,
        ih (hClosed.drop_run hNone hComment), renderLines_run hNone hComment, List.append_assoc]
  | code line rest hNone hPlain ih =>
      rw [List.cons_append, renderLines_code hNone hPlain, ih (hClosed.drop_code hNone hPlain),
        renderLines_code hNone hPlain, List.cons_append]

/-- The runs on both sides of the line of code share their token, and the comment behind it is never
closed. -/
theorem renderLines_append_assignment :
    startsComment Language.go "x := 1".toList = false ∧
      IsClosed Language.go (["/* a", "b */", "// c d"].map String.toList) ∧
      renderLines { column := 5, tab := 4 } Language.go
          (["/* a", "b */", "// c d"].map String.toList ++
            "x := 1".toList :: ["// e f", "/* g"].map String.toList) =
        ["/*", " * a", " * b", " */", "// c", "// d", "x := 1", "// e", "// f", "/* g"].map
          String.toList := by
  have hCode : startsComment Language.go "x := 1".toList = false := by decide
  have hClosed : IsClosed Language.go (["/* a", "b */", "// c d"].map String.toList) := by
    decide +kernel
  refine ⟨hCode, hClosed, ?_⟩
  rw [renderLines_append_cons _ hCode hClosed]
  decide +kernel

/-- A comment that is not closed in front of the line is closed behind it. -/
example :
    renderLines { column := 5, tab := 4 } Language.go (["/* a", "x", "b */"].map String.toList) ≠
      renderLines { column := 5, tab := 4 } Language.go ["/* a".toList] ++
        "x".toList :: renderLines { column := 5, tab := 4 } Language.go ["b */".toList] := by
  decide +kernel

end Source

end Reflow
