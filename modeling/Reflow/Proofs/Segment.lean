import Mathlib.Data.List.TakeWhile
import Reflow.Proofs.Text
import Reflow.Source

/-!
How the lines of a source text fall into segments, one comment or line of code at a time. Whatever
is read from segments, and reads code line by line, is read from the text in these steps.
-/

namespace Reflow

theorem Text.startsWith_iff {t start : Text} : startsWith t start = true ↔ start <+: t := by
  rw [startsWith, Option.isSome_iff_exists]
  constructor
  · rintro ⟨rest, h⟩
    exact ⟨rest, (dropPrefix?_eq_some h).symm⟩
  · rintro ⟨rest, rfl⟩
    exact ⟨rest, dropPrefix?_append start rest⟩

theorem Text.splitBytes?_append (a b : Text) :
    splitBytes? (byteLength a) (a ++ b) = some (a, b) := by
  induction a with
  | nil => cases b <;> simp [byteLength, splitBytes?]
  | cons c a ih =>
      have hPos : 0 < c.utf8Size := Char.utf8Size_pos c
      have hLength : byteLength (c :: a) = c.utf8Size + byteLength a := rfl
      rw [hLength, List.cons_append, splitBytes?, if_neg (by omega), if_pos (by omega),
        Nat.add_sub_cancel_left, ih]
      rfl

/-- Nothing is lost by dividing a text at a number of bytes. There is no result where a character
would be cut in two, and none behind the end. -/
theorem Text.splitBytes?_eq_some {n : Nat} {t front back : Text}
    (h : splitBytes? n t = some (front, back)) : t = front ++ back := by
  induction t generalizing n front with
  | nil =>
      simp only [splitBytes?, Option.ite_none_right_eq_some, Option.some.injEq,
        Prod.mk.injEq] at h
      rw [← h.2.1, ← h.2.2]
      rfl
  | cons c t ih =>
      rw [splitBytes?] at h
      split at h
      · obtain ⟨rfl, rfl⟩ := Prod.mk.inj (Option.some.inj h)
        rfl
      split at h
      · obtain ⟨⟨f, b⟩, hSplit, hPair⟩ := Option.map_eq_some_iff.mp h
        obtain ⟨rfl, rfl⟩ := Prod.mk.inj hPair
        rw [ih hSplit, List.cons_append]
      · cases h

/-- The indentation of a line is gaps, and what follows it does not start with one. With the last
part the division is the only one of this kind. -/
theorem Text.splitIndent_eq {t indent body : Text} (h : splitIndent t = (indent, body)) :
    t = indent ++ body ∧ (∀ c ∈ indent, isGap c = true) ∧
      ∀ c, body.head? = some c → isGap c = false := by
  obtain ⟨rfl, rfl⟩ := Prod.mk.inj h
  exact ⟨List.takeWhile_append_dropWhile.symm, fun c hc => List.mem_takeWhile_imp hc,
    fun c hc => eq_false_of_head?_dropWhile hc⟩

/-- Gaps in front of a text that starts with none are its indentation. This turns the shape of a
line into what the reader finds in it. -/
theorem Text.splitIndent_append {indent body : Text} (hIndent : ∀ c ∈ indent, isGap c = true)
    (hBody : ∀ c, body.head? = some c → isGap c = false) :
    splitIndent (indent ++ body) = (indent, body) := by
  rw [splitIndent, List.takeWhile_append_of_pos hIndent, List.dropWhile_append_of_pos hIndent]
  cases body with
  | nil => simp
  | cons c body => simp [hBody c rfl]

namespace Segment

/-- The marker of a comment line with the text `r` behind its token: one space more than the token,
if there is a space. -/
def spacedMarker (token r : Text) : Text :=
  if Text.startsWith r [' '] then token ++ [' '] else token

theorem spacedMarker_cases (token r : Text) :
    spacedMarker token r = token ∨ spacedMarker token r = token ++ [' '] := by
  unfold spacedMarker
  split
  · exact Or.inr rfl
  · exact Or.inl rfl

/-- A line comment is its indentation, a token of the language and text that is no directive. The
token is one of the language's tokens and not necessarily the longest that fits. -/
theorem matchLine?_eq_some {lang : Language} {line indent marker : Text}
    (h : matchLine? lang line = some (indent, marker)) :
    ∃ token ∈ lang.lineMarkers, ∃ rest, line = indent ++ (token ++ rest) ∧
      (∀ c ∈ indent, isGap c = true) ∧
      (∀ c, (token ++ rest).head? = some c → isGap c = false) ∧
      lang.directives.any (Text.startsWith rest) = false ∧
      marker = spacedMarker token rest := by
  unfold matchLine? at h
  cases hSplit : Text.splitIndent line with
  | mk front body =>
      obtain ⟨hLine, hFront, hBody⟩ := Text.splitIndent_eq hSplit
      simp only [hSplit] at h
      split at h
      · cases h
      split at h
      · cases h
      next token hToken =>
        split at h
        · cases h
        next hDirective =>
          obtain ⟨rfl, rfl⟩ := Prod.mk.inj (Option.some.inj h)
          obtain ⟨rest, rfl⟩ := Text.startsWith_iff.mp (List.find?_some hToken)
          rw [List.drop_left] at hDirective ⊢
          exact ⟨token, List.mem_of_find?_eq_some hToken, rest, hLine, hFront, hBody,
            by simpa using hDirective, rfl⟩

/-- The block comment that a line opens, with the token that closes it. A line that opens one for
which the language has no closing token counts as opening none. -/
def block? (lang : Language) (line : Text) : Option (Opening × Text) :=
  (opening? lang line).bind fun o => o.closing.map fun closing => (o, closing)

/-- A line that opens a block comment is its indentation, the opening token and the rest. That the
two tokens belong together is not said here. -/
theorem block?_eq_some {lang : Language} {line closing : Text} {o : Opening}
    (h : block? lang line = some (o, closing)) :
    line = o.indent ++ (o.opening ++ o.rest) ∧ (∀ c ∈ o.indent, isGap c = true) ∧
      o.opening ∈ lang.blockStart ∧ closing ∈ lang.blockEnd := by
  unfold block? opening? at h
  cases hSplit : Text.splitIndent line with
  | mk front body =>
      obtain ⟨hLine, hFront, -⟩ := Text.splitIndent_eq hSplit
      simp only [hSplit] at h
      split at h
      · cases h
      next index hIndex =>
        obtain ⟨opening, hOpening, hStarts⟩ := List.findIdx?_eq_some_iff_getElem.mp hIndex
        simp only [Option.bind_some, Option.map_eq_some_iff, Prod.mk.injEq] at h
        obtain ⟨close, hClose, rfl, rfl⟩ := h
        rw [List.getElem?_eq_getElem opening, Option.getD_some]
        obtain ⟨rest, hRest⟩ := Text.startsWith_iff.mp hOpening
        refine ⟨?_, hFront, List.getElem_mem opening, ?_⟩
        · rw [← hRest, List.drop_left, hRest]
          exact hLine
        · rw [Language.blockEndFor, Option.or_eq_some_iff] at hClose
          rcases hClose with hClose | ⟨-, hClose⟩
          · exact List.mem_of_getElem? hClose
          · exact List.mem_of_head? hClose

/-- The comment lines that directly follow a line comment and share its indentation and token. A
directive among them ends the run. -/
def runAfter (lang : Language) (indent marker : Text) (rest : List Text) : List Text :=
  rest.takeWhile fun l => (marker? lang indent (Text.dropEndSpaces marker) l).isSome

/-- The lines behind that run, from the first one on that does not belong to it. -/
def restAfter (lang : Language) (indent marker : Text) (rest : List Text) : List Text :=
  rest.dropWhile fun l => (marker? lang indent (Text.dropEndSpaces marker) l).isSome

/-- The marker of a whole run: the longest that one of its lines has. All its lines are written with
it, also those that had no space behind the token. -/
def runMarker (lang : Language) (indent marker : Text) (rest : List Text) : Text :=
  ((runAfter lang indent marker rest).filterMap
    (marker? lang indent (Text.dropEndSpaces marker))).foldl longer marker

theorem runAfter_append_restAfter (lang : Language) (indent marker : Text) (rest : List Text) :
    runAfter lang indent marker rest ++ restAfter lang indent marker rest = rest :=
  List.takeWhile_append_dropWhile

theorem length_restAfter_le (lang : Language) (indent marker : Text) (rest : List Text) :
    (restAfter lang indent marker rest).length ≤ rest.length :=
  List.length_dropWhile_le _ _

/-- Induction along the segments of lines, where code goes line by line. The four cases are the ones
that the scan distinguishes, so that no other proof has to open it. -/
theorem lines_induction (lang : Language) {motive : List Text → Prop} (nil : motive [])
    (block : ∀ line rest o closing more, block? lang line = some (o, closing) →
      blockMore? o closing rest = some more → motive (rest.drop more) → motive (line :: rest))
    (unclosed : ∀ line rest o closing, block? lang line = some (o, closing) →
      blockMore? o closing rest = none → motive (line :: rest))
    (run : ∀ line rest indent marker, block? lang line = none →
      matchLine? lang line = some (indent, marker) → motive (restAfter lang indent marker rest) →
      motive (line :: rest))
    (code : ∀ line rest, block? lang line = none → matchLine? lang line = none → motive rest →
      motive (line :: rest)) (lines : List Text) : motive lines := by
  induction hn : lines.length using Nat.strong_induction_on generalizing lines with
  | _ n ih =>
      cases lines with
      | nil => exact nil
      | cons line rest =>
          rw [List.length_cons] at hn
          cases hBlock : block? lang line with
          | some pair =>
              obtain ⟨o, closing⟩ := pair
              cases hMore : blockMore? o closing rest with
              | none => exact unclosed line rest o closing hBlock hMore
              | some more =>
                  refine block line rest o closing more hBlock hMore (ih _ ?_ _ rfl)
                  rw [List.length_drop]
                  omega
          | none =>
              cases hMatch : matchLine? lang line with
              | none => exact code line rest hBlock hMatch (ih _ (by omega) _ rfl)
              | some pair =>
                  obtain ⟨indent, marker⟩ := pair
                  have hLength := length_restAfter_le lang indent marker rest
                  exact run line rest indent marker hBlock hMatch (ih _ (by omega) _ rfl)

theorem attach_of_isComment {s : Segment} (hs : s.isComment = true) (ss : List Segment) :
    attach s ss = s :: ss := by
  have hKind : s.kind ≠ .code := by simpa [isComment] using hs
  cases ss with
  | nil => rfl
  | cons t ts => simp [attach, hKind]

/-- Code before code is joined once and for all, so it does not matter in which order lines of code
are joined. -/
theorem attach_attach {s t : Segment} (hs : s.kind = .code) (ht : t.kind = .code)
    (ss : List Segment) :
    attach s (attach t ss) = attach { s with lines := s.lines ++ t.lines } ss := by
  cases ss with
  | nil => simp [attach, hs, ht]
  | cons u us => by_cases hu : u.kind = .code <;> simp [attach, hs, ht, hu]

section Steps

variable {lang : Language} {line : Text} {rest : List Text}

theorem ofSource_block {o : Opening} {closing : Text} {more : Nat}
    (hBlock : block? lang line = some (o, closing))
    (hMore : blockMore? o closing rest = some more) :
    ofSource lang (line :: rest) =
      ⟨.blockComment o.opening closing, o.indent, line :: rest.take more⟩ ::
        ofSource lang (rest.drop more) := by
  have hFirst : first lang line rest =
      ⟨.blockComment o.opening closing, o.indent, line :: rest.take more⟩ := by
    rw [block?] at hBlock
    simp only [first, hBlock, hMore]
  have hDrop : rest.drop (rest.take more).length = rest.drop more := by
    rw [List.length_take, List.drop_eq_drop_iff]
    omega
  rw [ofSource, hFirst, attach_of_isComment rfl, List.length_cons, Nat.add_sub_cancel, hDrop]

theorem ofSource_unclosed {o : Opening} {closing : Text}
    (hBlock : block? lang line = some (o, closing)) (hMore : blockMore? o closing rest = none) :
    ofSource lang (line :: rest) = [⟨.code, [], line :: rest⟩] := by
  have hFirst : first lang line rest = ⟨.code, [], line :: rest⟩ := by
    rw [block?] at hBlock
    simp only [first, hBlock, hMore]
  rw [ofSource, hFirst, List.length_cons, Nat.add_sub_cancel, List.drop_length, ofSource, attach]

/-- A run of line comments is one segment, with the marker of the whole run, and the scan goes on
behind it. -/
theorem ofSource_run {indent marker : Text} (hBlock : block? lang line = none)
    (hMatch : matchLine? lang line = some (indent, marker)) :
    ofSource lang (line :: rest) =
      ⟨.lineComment (runMarker lang indent marker rest), indent,
          line :: runAfter lang indent marker rest⟩ ::
        ofSource lang (restAfter lang indent marker rest) := by
  have hFirst : first lang line rest = ⟨.lineComment (runMarker lang indent marker rest), indent,
      line :: runAfter lang indent marker rest⟩ := by
    rw [block?] at hBlock
    simp only [first, hBlock, hMatch]
    rfl
  have hDrop : rest.drop (runAfter lang indent marker rest).length =
      restAfter lang indent marker rest := by
    have hSplit := runAfter_append_restAfter lang indent marker rest
    generalize runAfter lang indent marker rest = taken, restAfter lang indent marker rest = after
      at hSplit ⊢
    rw [← hSplit, List.drop_left]
  rw [ofSource, hFirst, attach_of_isComment rfl, List.length_cons, Nat.add_sub_cancel, hDrop]

/-- A line that starts no comment is code, in one segment with the code behind it. -/
theorem ofSource_code (hBlock : block? lang line = none) (hMatch : matchLine? lang line = none) :
    ofSource lang (line :: rest) = attach ⟨.code, [], [line]⟩ (ofSource lang rest) := by
  have hFirst : ∀ l ls, block? lang l = none → matchLine? lang l = none →
      first lang l ls = ⟨.code, [], l :: ls.takeWhile (!startsComment lang ·)⟩ := by
    intro l ls hBlock hMatch
    rw [block?] at hBlock
    simp only [first, hBlock, hMatch]
  rw [ofSource, hFirst line rest hBlock hMatch]
  cases rest with
  | nil => rfl
  | cons l ls =>
      by_cases hStarts : startsComment lang l = true
      · simp [hStarts]
      · -- The next line is code too, and the run of code behind it is the same for both lines.
        have hNone : opening? lang l = none ∧ matchLine? lang l = none := by
          simpa [startsComment] using hStarts
        have hOpen : block? lang l = none := by rw [block?, hNone.1]; rfl
        have hRest : ofSource lang (l :: ls) = _ := ofSource.eq_def lang (l :: ls)
        dsimp only at hRest
        rw [hFirst l ls hOpen hNone.2] at hRest
        rw [hRest, attach_attach rfl rfl, List.takeWhile_cons_of_pos (by simpa using hStarts)]
        simp

end Steps

section Reading

variable {β : Type} {f : Segment → List β} {g : Text → List β}
  (hf : ∀ s : Segment, s.kind = .code → f s = s.lines.flatMap g)
include hf

/-- Joining code with code changes nothing for a reading that reads code line by line. Where code
was divided can so be left out of account. -/
theorem flatMap_attach (s : Segment) (ss : List Segment) :
    (attach s ss).flatMap f = f s ++ ss.flatMap f := by
  cases ss with
  | nil => simp [attach]
  | cons t ts =>
      rw [attach]
      split
      next hCode =>
        obtain ⟨hs, ht⟩ : s.kind = .code ∧ t.kind = .code := by simpa using hCode
        have hJoined : f { s with lines := s.lines ++ t.lines } = f s ++ f t := by
          rw [hf s hs, hf t ht, ← List.flatMap_append]
          exact hf _ hs
        rw [List.flatMap_cons, hJoined, List.append_assoc, List.flatMap_cons]
      · rfl

theorem flatMap_ofSource_unclosed {lang : Language} {line closing : Text} {rest : List Text}
    {o : Opening} (hBlock : block? lang line = some (o, closing))
    (hMore : blockMore? o closing rest = none) :
    (ofSource lang (line :: rest)).flatMap f = (line :: rest).flatMap g := by
  rw [ofSource_unclosed hBlock hMore, List.flatMap_singleton, hf _ rfl]

/-- A reading that reads code line by line takes a line of code by itself and goes on behind it,
although the segment of the line may be longer. -/
theorem flatMap_ofSource_code {lang : Language} {line : Text} {rest : List Text}
    (hBlock : block? lang line = none) (hMatch : matchLine? lang line = none) :
    (ofSource lang (line :: rest)).flatMap f = g line ++ (ofSource lang rest).flatMap f := by
  rw [ofSource_code hBlock hMatch, flatMap_attach hf, hf _ rfl, List.flatMap_singleton]

end Reading

/-- The comments of a source text in their order, without the code around them. -/
def comments (lang : Language) (lines : List Text) : List Segment :=
  (ofSource lang lines).flatMap fun s => if s.isComment then [s] else []

theorem mem_comments {lang : Language} {lines : List Text} {s : Segment} :
    s ∈ comments lang lines ↔ s ∈ ofSource lang lines ∧ s.isComment = true := by
  rw [comments, List.mem_flatMap]
  constructor
  · rintro ⟨t, ht, hs⟩
    split at hs
    next hComment => exact List.mem_singleton.mp hs ▸ ⟨ht, hComment⟩
    · cases hs
  · rintro ⟨hs, hComment⟩
    exact ⟨s, hs, by simp [hComment]⟩

theorem comments_reads_code (s : Segment) (hs : s.kind = .code) :
    (if s.isComment then [s] else []) = s.lines.flatMap fun _ => ([] : List Segment) := by
  simp [isComment, hs]

section Comments

variable {lang : Language} {line : Text} {rest : List Text}

/-- What the four steps of the scan, this one and the three below, find of comments: a block
comment, none in code to the end, a run, and none in a line of code. -/
theorem comments_block {o : Opening} {closing : Text} {more : Nat}
    (hBlock : block? lang line = some (o, closing))
    (hMore : blockMore? o closing rest = some more) :
    comments lang (line :: rest) =
      ⟨.blockComment o.opening closing, o.indent, line :: rest.take more⟩ ::
        comments lang (rest.drop more) := by
  rw [comments, ofSource_block hBlock hMore, List.flatMap_cons]
  rfl

theorem comments_unclosed {o : Opening} {closing : Text}
    (hBlock : block? lang line = some (o, closing)) (hMore : blockMore? o closing rest = none) :
    comments lang (line :: rest) = [] := by
  rw [comments, flatMap_ofSource_unclosed comments_reads_code hBlock hMore]
  simp

theorem comments_run {indent marker : Text} (hBlock : block? lang line = none)
    (hMatch : matchLine? lang line = some (indent, marker)) :
    comments lang (line :: rest) =
      ⟨.lineComment (runMarker lang indent marker rest), indent,
          line :: runAfter lang indent marker rest⟩ ::
        comments lang (restAfter lang indent marker rest) := by
  rw [comments, ofSource_run hBlock hMatch, List.flatMap_cons]
  rfl

theorem comments_code (hBlock : block? lang line = none) (hMatch : matchLine? lang line = none) :
    comments lang (line :: rest) = comments lang rest :=
  flatMap_ofSource_code comments_reads_code hBlock hMatch

end Comments

end Segment

namespace Source

open Segment

variable {L : Layout} {lang : Language} {line : Text} {rest : List Text}

theorem renderSegment_code (s : Segment) (hs : s.kind = .code) :
    renderSegment L lang s = s.lines.flatMap fun l => [l] := by
  simp [renderSegment, hs]

@[simp] theorem renderLines_nil : renderLines L lang [] = [] := by
  simp [renderLines, ofSource]

/-- The same four steps for a rewrapped text. A block comment is rewrapped with all its lines, and
what stands behind it by itself. -/
theorem renderLines_block {o : Opening} {closing : Text} {more : Nat}
    (hBlock : block? lang line = some (o, closing))
    (hMore : blockMore? o closing rest = some more) :
    renderLines L lang (line :: rest) =
      BlockComment.render L o.indent o.opening closing lang.blockGutter (line :: rest.take more) ++
        renderLines L lang (rest.drop more) := by
  rw [renderLines, ofSource_block hBlock hMore, List.flatMap_cons]
  rfl

theorem renderLines_unclosed {o : Opening} {closing : Text}
    (hBlock : block? lang line = some (o, closing)) (hMore : blockMore? o closing rest = none) :
    renderLines L lang (line :: rest) = line :: rest := by
  rw [renderLines, flatMap_ofSource_unclosed renderSegment_code hBlock hMore]
  simp

/-- A run is rewrapped with the marker that all of its lines decide together. -/
theorem renderLines_run {indent marker : Text} (hBlock : block? lang line = none)
    (hMatch : matchLine? lang line = some (indent, marker)) :
    renderLines L lang (line :: rest) =
      LineComment.render L lang indent (runMarker lang indent marker rest)
          (line :: runAfter lang indent marker rest) ++
        renderLines L lang (restAfter lang indent marker rest) := by
  rw [renderLines, ofSource_run hBlock hMatch, List.flatMap_cons]
  rfl

theorem renderLines_code (hBlock : block? lang line = none) (hMatch : matchLine? lang line = none) :
    renderLines L lang (line :: rest) = line :: renderLines L lang rest :=
  flatMap_ofSource_code renderSegment_code hBlock hMatch

end Source

end Reflow
