import Reflow.Proofs.Comment.Block

/-!
What the segments of a source text are, told without the scan that finds them. They divide the lines
of the text. A run of line comments shares its indentation and token and goes on as long as the
lines do. A block comment ends with the first line that closes it. All else is code, and so is
everything from a block comment on that is never closed. One division is like this, and it is the
one that is found, whatever the tokens of the language are.
-/

namespace Reflow

namespace Segment

/-- A line that starts no line comment, and no block comment for which there is a closing token. It
is judged by itself: whether it lies inside a block comment is not asked. -/
def IsPlain (lang : Language) (line : Text) : Prop :=
  block? lang line = none ∧ matchLine? lang line = none

/-- A line that opens a block comment: indentation, the opening token at `index`, and the rest. No
token before that one fits. The closing token goes by this index, so the same text may be closed
otherwise where another token is found first. -/
structure Opens (lang : Language) (index : Nat) (indent opening rest line : Text) : Prop where
  line_eq : line = indent ++ (opening ++ rest)
  indent_open : ∀ c ∈ indent, isGap c = true
  body_solid : ∀ c, (opening ++ rest).head? = some c → isGap c = false
  token : lang.blockStart[index]? = some opening
  earliest : ∀ i < index, ∀ other, lang.blockStart[i]? = some other → ¬other <+: opening ++ rest

/-- A comment whose first line goes on with `rest` has the lines `more` below it: none if `rest`
holds the closing token, and else all up to the first one that does. -/
def ClosedBy (closing rest : Text) (more : List Text) : Prop :=
  (closing <:+: rest ∧ more = []) ∨
    (¬closing <:+: rest ∧ ∃ middle last, more = middle ++ [last] ∧
      (∀ l ∈ middle, ¬closing <:+: l) ∧ closing <:+: last)

/-- A line opens a block comment that is closed neither on it nor in the lines `after`, which have
to be all lines behind it. -/
def Unclosed (lang : Language) (line : Text) (after : List Text) : Prop :=
  ∃ o closing, block? lang line = some (o, closing) ∧ ∀ l ∈ o.rest :: after, ¬closing <:+: l

/-- Lines of code in front of the lines `after`: lines that start no comment, and behind them
perhaps a comment that is never closed, which leaves no line behind it. -/
def CodeSound (lang : Language) (lines after : List Text) : Prop :=
  ∃ plain tail, lines = plain ++ tail ∧ (∀ l ∈ plain, IsPlain lang l) ∧
    (tail = [] ∨ after = [] ∧ ∃ line rest, tail = line :: rest ∧ Unclosed lang line rest)

/-- A block comment and nothing else: it ends with the line that closes it. What stands behind it is
of no concern. -/
def BlockSound (lang : Language) (indent opening closing : Text) (lines : List Text) : Prop :=
  ∃ index rest first more, lines = first :: more ∧ Opens lang index indent opening rest first ∧
    lang.blockEndFor index = some closing ∧ ClosedBy closing rest more

/-- A run of line comments in front of the lines `after`. Its token is `base`, and its marker is the
longest that one of its lines has. -/
structure RunSound (lang : Language) (indent base marker : Text) (lines after : List Text) :
    Prop where
  first : ∀ l, lines.head? = some l → block? lang l = none
  line : ∀ l ∈ lines, (marker? lang indent base l).isSome = true
  /-- What the content of a line is read from is there: the indentation, and the token behind it. -/
  written : ∀ l ∈ lines, ∃ rest, l = indent ++ (base ++ rest) ∧
    Text.splitBytes? (Text.byteLength indent) l = some (indent, base ++ rest) ∧
    Text.dropPrefix? base (base ++ rest) = some rest
  used : ∃ l ∈ lines, marker? lang indent base l = some marker
  longest : ∀ l ∈ lines, ∀ m, marker? lang indent base l = some m → m.length ≤ marker.length
  maximal : ∀ l, after.head? = some l → marker? lang indent base l = none

/-- A segment is what it says it is, in front of the lines `after`. Only code and runs ask what
comes behind them. -/
def Sound (lang : Language) (s : Segment) (after : List Text) : Prop :=
  match s.kind with
  | .code => s.indent = [] ∧ CodeSound lang s.lines after
  | .lineComment marker =>
    RunSound lang s.indent (Text.dropEndSpaces marker) marker s.lines after
  | .blockComment opening closing => BlockSound lang s.indent opening closing s.lines

/-- Every segment is sound in front of the lines of those behind it. The induction on segments peels
off the first one. -/
def AllSound (lang : Language) : List Segment → Prop
  | [] => True
  | s :: ss => Sound lang s (ss.flatMap Segment.lines) ∧ AllSound lang ss

/-- Neighbours are not both code, and not both line comments with one indentation and one token.
Otherwise they should have been one segment. -/
structure Apart (s t : Segment) : Prop where
  code : s.kind = .code → t.kind ≠ .code
  lineComment {m n : Text} (hs : s.kind = .lineComment m) (ht : t.kind = .lineComment n) :
    s.indent ≠ t.indent ∨ Text.dropEndSpaces m ≠ Text.dropEndSpaces n

/-- The segments `ss` are a division of the lines as it should be: nothing lost, no empty segment,
neighbours that belong apart, and every segment sound. -/
structure Divides (lang : Language) (lines : List Text) (ss : List Segment) : Prop where
  tiles : ss.flatMap Segment.lines = lines
  ne_nil : ∀ s ∈ ss, s.lines ≠ []
  apart : ss.IsChain Apart
  sound : AllSound lang ss

/-- What the scan takes for the start of a block comment is one, and the closing token is the one
that goes with the opening token. -/
theorem exists_opens_of_block? {lang : Language} {line closing : Text} {o : Opening}
    (h : block? lang line = some (o, closing)) : o.closing = some closing ∧
      ∃ index, Opens lang index o.indent o.opening o.rest line ∧
        lang.blockEndFor index = some closing := by
  unfold block? opening? at h
  cases hSplit : Text.splitIndent line with
  | mk indent body =>
      obtain ⟨hLine, hIndent, hBody⟩ := Text.splitIndent_eq hSplit
      simp only [hSplit] at h
      split at h
      · cases h
      next index hIndex =>
        obtain ⟨hLt, hStarts, hEarlier⟩ := List.findIdx?_eq_some_iff_getElem.mp hIndex
        simp only [Option.bind_some, Option.map_eq_some_iff, Prod.mk.injEq] at h
        obtain ⟨close, hClose, rfl, rfl⟩ := h
        have hToken : lang.blockStart[index]? = some lang.blockStart[index] :=
          List.getElem?_eq_getElem hLt
        obtain ⟨rest, rfl⟩ := Text.startsWith_iff.mp hStarts
        rw [hToken, Option.getD_some, List.drop_left]
        refine ⟨hClose, index, ⟨hLine, hIndent, hBody, hToken, ?_⟩, hClose⟩
        intro i hi other hOther hPrefix
        obtain ⟨hBound, rfl⟩ := List.getElem?_eq_some_iff.mp hOther
        exact hEarlier i hi (Text.startsWith_iff.mpr hPrefix)

/-- The token that opens a line is the first that is found, since no token before it fits. -/
theorem Opens.findIdx?_eq {lang : Language} {index : Nat} {indent opening rest line : Text}
    (h : Opens lang index indent opening rest line) :
    lang.blockStart.findIdx? (Text.startsWith (opening ++ rest)) = some index := by
  obtain ⟨hLt, hToken⟩ := List.getElem?_eq_some_iff.mp h.token
  rw [List.findIdx?_eq_some_iff_getElem]
  refine ⟨hLt, ?_, fun i hi hStarts => ?_⟩
  · rw [hToken]
    exact Text.startsWith_iff.mpr (List.prefix_append opening rest)
  · exact h.earliest i hi _ (List.getElem?_eq_getElem _) (Text.startsWith_iff.mp hStarts)

/-- A block comment is opened by the first opening token that fits, if there is a closing token for
its index. This needs nothing of the tokens, which may be empty or overlap. -/
theorem block?_eq_some_iff_opens {lang : Language} {line closing : Text} {o : Opening} :
    block? lang line = some (o, closing) ↔ o.closing = some closing ∧
      ∃ index, Opens lang index o.indent o.opening o.rest line ∧
        lang.blockEndFor index = some closing := by
  refine ⟨exists_opens_of_block?, ?_⟩
  obtain ⟨indent, opening, close, rest⟩ := o
  rintro ⟨rfl, index, hOpens, hClosing⟩
  dsimp only at hOpens
  have hSplit : Text.splitIndent line = (indent, opening ++ rest) := by
    rw [hOpens.line_eq]
    exact Text.splitIndent_append hOpens.indent_open hOpens.body_solid
  simp only [block?, opening?, hSplit, hOpens.findIdx?_eq, hOpens.token, hClosing, Option.getD_some,
    List.drop_left]
  rfl

theorem blockMore?_eq_none_iff {o : Opening} {closing : Text} {rest : List Text} :
    blockMore? o closing rest = none ↔ ∀ l ∈ o.rest :: rest, ¬closing <:+: l := by
  rw [List.forall_mem_cons, ← Text.contains_iff]
  unfold blockMore?
  split
  next hFirst => simp [hFirst]
  next hFirst => simp [hFirst, ← Text.contains_iff]

/-- The lines that a comment has by its description are the ones that the scan takes. -/
theorem blockMore?_of_closedBy {o : Opening} {closing : Text} {more : List Text}
    (h : ClosedBy closing o.rest more) (after : List Text) :
    blockMore? o closing (more ++ after) = some more.length := by
  rw [blockMore?_eq_some_iff]
  rcases h with ⟨hFirst, rfl⟩ | ⟨hFirst, middle, last, rfl, hMiddle, hLast⟩
  · exact Or.inl ⟨hFirst, rfl⟩
  · refine Or.inr ⟨hFirst, middle, last, after, ?_, hMiddle, hLast, ?_⟩
    · rw [List.append_assoc, List.singleton_append]
    · rw [List.length_append, List.length_singleton]

theorem closedBy_of_blockMore? {o : Opening} {closing : Text} {rest : List Text} {more : Nat}
    (h : blockMore? o closing rest = some more) : ClosedBy closing o.rest (rest.take more) := by
  rcases blockMore?_eq_some_iff.mp h with ⟨hFirst, rfl⟩ |
    ⟨hFirst, middle, last, after, rfl, hMiddle, hLast, rfl⟩
  · exact Or.inl ⟨hFirst, rfl⟩
  · refine Or.inr ⟨hFirst, middle, last, ?_, hMiddle, hLast⟩
    rw [List.take_append, List.take_of_length_le (Nat.le_succ _)]
    simp

/-- A run takes the marker of one of its lines, and none of them has a longer one. The first of the
longest is taken, but that is not said, as markers of one token and one length are equal. -/
theorem foldl_longer_mem (marker : Text) (markers : List Text) :
    markers.foldl longer marker ∈ marker :: markers ∧
      ∀ m ∈ marker :: markers, m.length ≤ (markers.foldl longer marker).length := by
  induction markers generalizing marker with
  | nil => simp
  | cons n markers ih =>
      obtain ⟨hMem, hLongest⟩ := ih (longer marker n)
      rw [List.forall_mem_cons] at hLongest
      obtain ⟨hFirst, hRest⟩ := hLongest
      rw [List.foldl_cons]
      have hLonger : marker.length ≤ (longer marker n).length ∧
          n.length ≤ (longer marker n).length := by
        unfold longer
        split <;> omega
      constructor
      · rcases List.mem_cons.mp hMem with hEq | hMem
        · rw [hEq]
          rcases longer_eq_or marker n with h | h <;> simp [h]
        · exact List.mem_cons_of_mem _ (List.mem_cons_of_mem _ hMem)
      · rw [List.forall_mem_cons, List.forall_mem_cons]
        exact ⟨hLonger.1.trans hFirst, hLonger.2.trans hFirst, hRest⟩

/-- Markers with the same token differ in length, if they differ, since they differ in spaces
only. -/
theorem eq_of_dropEndSpaces_eq {a b : Text} (hToken : Text.dropEndSpaces a = Text.dropEndSpaces b)
    (hLength : a.length = b.length) : a = b := by
  obtain ⟨m, hm⟩ := Text.exists_eq_dropEndSpaces_append a
  obtain ⟨n, hn⟩ := Text.exists_eq_dropEndSpaces_append b
  rw [hm, hn, hToken, List.length_append, List.length_append, List.length_replicate,
    List.length_replicate] at hLength
  rw [hm, hn, hToken, Nat.add_left_cancel hLength]

/-- A comment line is its indentation, its token and the rest, also where the token ends in
spaces. -/
theorem exists_eq_of_marker? {lang : Language} {indent base line : Text}
    (h : (marker? lang indent base line).isSome = true) :
    ∃ rest, line = indent ++ (base ++ rest) := by
  obtain ⟨marker, hMarker⟩ := Option.isSome_iff_exists.mp h
  obtain ⟨hMatch, rfl⟩ := marker?_eq_some hMarker
  obtain ⟨token, -, rest, hLine, -, -, -, rfl⟩ := matchLine?_eq_some hMatch
  have hToken : Text.dropEndSpaces (spacedMarker token rest) = Text.dropEndSpaces token := by
    rcases spacedMarker_cases token rest with h | h
    · rw [h]
    · rw [h, Text.dropEndSpaces_append_space]
  obtain ⟨n, hSpaces⟩ := Text.exists_eq_dropEndSpaces_append token
  rw [← hToken] at hSpaces
  refine ⟨List.replicate n ' ' ++ rest, ?_⟩
  rw [← List.append_assoc (Text.dropEndSpaces _), ← hSpaces]
  exact hLine

/-- A line comment and the run behind it are sound as a run. Every clause is about the lines
themselves, so the scan no longer occurs in them. -/
theorem runSound_runAfter {lang : Language} {line indent marker : Text} (rest : List Text)
    (hBlock : block? lang line = none) (hMatch : matchLine? lang line = some (indent, marker)) :
    RunSound lang indent (Text.dropEndSpaces marker) (runMarker lang indent marker rest)
      (line :: runAfter lang indent marker rest) (restAfter lang indent marker rest) := by
  have hLine : ∀ l ∈ line :: runAfter lang indent marker rest,
      (marker? lang indent (Text.dropEndSpaces marker) l).isSome = true := fun l =>
    marker?_isSome_of_mem_run hMatch
  have hMarkers : ∀ m, m ∈ marker :: (runAfter lang indent marker rest).filterMap
      (marker? lang indent (Text.dropEndSpaces marker)) ↔
        ∃ l ∈ line :: runAfter lang indent marker rest,
          marker? lang indent (Text.dropEndSpaces marker) l = some m := by
    intro m
    rw [← List.mem_filterMap, List.filterMap_cons, marker?_of_matchLine? hMatch]
  obtain ⟨hMem, hLongest⟩ := foldl_longer_mem marker
    ((runAfter lang indent marker rest).filterMap (marker? lang indent (Text.dropEndSpaces marker)))
  constructor
  · intro l hl
    rw [← Option.some.inj hl]
    exact hBlock
  · exact hLine
  · intro l hl
    obtain ⟨t, rfl⟩ := exists_eq_of_marker? (hLine l hl)
    exact ⟨t, rfl, Text.splitBytes?_append _ _, Text.dropPrefix?_append _ _⟩
  · exact (hMarkers _).mp hMem
  · intro l hl m hm
    exact hLongest m ((hMarkers m).mpr ⟨l, hl, hm⟩)
  · exact fun l => marker?_head_restAfter

namespace RunSound

variable {lang : Language} {indent base marker line : Text} {more after : List Text}

/-- The marker of a sound run is decided by its lines, whatever is behind them. -/
theorem marker_eq {lines after' : List Text} {other : Text}
    (h : RunSound lang indent base marker lines after)
    (h' : RunSound lang indent base other lines after') : marker = other := by
  obtain ⟨l, hl, hMarker⟩ := h.used
  obtain ⟨l', hl', hOther⟩ := h'.used
  apply eq_of_dropEndSpaces_eq
  · rw [(marker?_eq_some hMarker).2, (marker?_eq_some hOther).2]
  · exact Nat.le_antisymm (h'.longest l hl _ hMarker) (h.longest l' hl' _ hOther)

theorem exists_matchLine? (h : RunSound lang indent base marker (line :: more) after) :
    ∃ own, matchLine? lang line = some (indent, own) ∧ Text.dropEndSpaces own = base := by
  obtain ⟨own, hOwn⟩ := Option.isSome_iff_exists.mp (h.line line List.mem_cons_self)
  exact ⟨own, marker?_eq_some hOwn⟩

/-- A sound run is the one that the scan takes: it cannot be shorter, as the next line would
continue it, and not longer. -/
theorem eq_run {own : Text}
    (h : RunSound lang indent (Text.dropEndSpaces own) marker (line :: more) after)
    (hMatch : matchLine? lang line = some (indent, own)) :
    runAfter lang indent own (more ++ after) = more ∧
      restAfter lang indent own (more ++ after) = after ∧
      runMarker lang indent own (more ++ after) = marker := by
  have hMore : ∀ l ∈ more, (marker? lang indent (Text.dropEndSpaces own) l).isSome = true :=
    fun l hl => h.line l (List.mem_cons_of_mem line hl)
  have hRun : runAfter lang indent own (more ++ after) = more := by
    rw [runAfter_append more h.maximal]
    exact List.takeWhile_eq_self_iff.mpr hMore
  have hRest : restAfter lang indent own (more ++ after) = after := by
    have hSplit := runAfter_append_restAfter lang indent own (more ++ after)
    rw [hRun] at hSplit
    exact List.append_cancel_left hSplit
  have hSame := runSound_runAfter (more ++ after) (h.first line rfl) hMatch
  rw [hRun] at hSame
  exact ⟨hRun, hRest, hSame.marker_eq h⟩

end RunSound

/-- Code line by line: a line that starts no comment, or one that opens a comment which is never
closed and takes all the rest. -/
theorem codeSound_cons {lang : Language} {line : Text} {more after : List Text} :
    CodeSound lang (line :: more) after ↔
      IsPlain lang line ∧ CodeSound lang more after ∨
        after = [] ∧ Unclosed lang line more := by
  constructor
  · rintro ⟨plain, tail, hSplit, hPlain, hTail⟩
    cases plain with
    | nil =>
        rw [List.nil_append] at hSplit
        subst hSplit
        rcases hTail with hNil | ⟨hAfter, first, rest, hCons, hUnclosed⟩
        · cases hNil
        · obtain ⟨rfl, rfl⟩ := List.cons.inj hCons
          exact Or.inr ⟨hAfter, hUnclosed⟩
    | cons first plain =>
        rw [List.cons_append] at hSplit
        obtain ⟨rfl, hMore⟩ := List.cons.inj hSplit
        rw [List.forall_mem_cons] at hPlain
        exact Or.inl ⟨hPlain.1, plain, tail, hMore, hPlain.2, hTail⟩
  · rintro (⟨hLine, plain, tail, hMore, hPlain, hTail⟩ | ⟨hAfter, hUnclosed⟩)
    · refine ⟨line :: plain, tail, ?_, List.forall_mem_cons.mpr ⟨hLine, hPlain⟩, hTail⟩
      rw [hMore, List.cons_append]
    · exact ⟨[], line :: more, rfl, List.forall_mem_nil _,
        Or.inr ⟨hAfter, line, more, rfl, hUnclosed⟩⟩

theorem blockSound_cons {lang : Language} {indent opening closing line : Text} {more : List Text} :
    BlockSound lang indent opening closing (line :: more) ↔
      ∃ rest, block? lang line = some (⟨indent, opening, some closing, rest⟩, closing) ∧
        ClosedBy closing rest more := by
  constructor
  · rintro ⟨index, rest, first, below, hCons, hOpens, hClosing, hClosed⟩
    obtain ⟨rfl, rfl⟩ := List.cons.inj hCons
    exact ⟨rest, block?_eq_some_iff_opens.mpr ⟨rfl, index, hOpens, hClosing⟩, hClosed⟩
  · rintro ⟨rest, hBlock, hClosed⟩
    obtain ⟨-, index, hOpens, hClosing⟩ := block?_eq_some_iff_opens.mp hBlock
    exact ⟨index, rest, line, more, rfl, hOpens, hClosing, hClosed⟩

namespace Apart

variable {s t : Segment}

theorem of_code (hs : s.kind = .code) (ht : t.kind ≠ .code) : Apart s t where
  code _ := ht
  lineComment h := by rw [hs] at h; cases h

theorem of_blockComment {opening closing : Text} (hs : s.kind = .blockComment opening closing) :
    Apart s t where
  code h := by rw [hs] at h; cases h
  lineComment h := by rw [hs] at h; cases h

theorem of_lineComment {m : Text} (hs : s.kind = .lineComment m)
    (h : ∀ n, t.kind = .lineComment n →
      s.indent ≠ t.indent ∨ Text.dropEndSpaces m ≠ Text.dropEndSpaces n) : Apart s t where
  code hCode := by rw [hs] at hCode; cases hCode
  lineComment hm hn := by
    rw [hs] at hm
    obtain rfl := SegmentKind.lineComment.inj hm
    exact h _ hn

end Apart

section Divides

variable {lang : Language}

theorem divides_nil : Divides lang [] [] :=
  ⟨rfl, List.forall_mem_nil _, .nil, trivial⟩

/-- A segment in front of a division makes a division, if it is sound there and apart from the first
of the others. -/
theorem Divides.cons {s : Segment} {line : Text} {more after : List Text} {ss : List Segment}
    (h : Divides lang after ss) (hLines : s.lines = line :: more) (hSound : Sound lang s after)
    (hApart : ∀ t, ss.head? = some t → Apart s t) :
    Divides lang (line :: (more ++ after)) (s :: ss) where
  tiles := by rw [List.flatMap_cons, h.tiles, hLines, List.cons_append]
  ne_nil := List.forall_mem_cons.mpr ⟨hLines ▸ List.cons_ne_nil _ _, h.ne_nil⟩
  apart := List.isChain_cons.mpr ⟨hApart, h.apart⟩
  sound := by
    rw [AllSound, h.tiles]
    exact ⟨hSound, h.sound⟩

theorem divides_singleton {s : Segment} {line : Text} {more : List Text}
    (hLines : s.lines = line :: more) (hSound : Sound lang s []) :
    Divides lang (line :: more) [s] := by
  have hDivides := divides_nil.cons hLines hSound (by intro t ht; cases ht)
  rwa [List.append_nil] at hDivides

/-- The first segment of a division, and what is left for the others. It is not empty, so the lines
get fewer. -/
theorem Divides.exists_cons {line : Text} {rest : List Text} {ss : List Segment}
    (h : Divides lang (line :: rest) ss) :
    ∃ kind indent more after tail, ss = ⟨kind, indent, line :: more⟩ :: tail ∧
      rest = more ++ after ∧ Sound lang ⟨kind, indent, line :: more⟩ after ∧
      (∀ t, tail.head? = some t → Apart ⟨kind, indent, line :: more⟩ t) ∧
      Divides lang after tail := by
  obtain ⟨hTiles, hNe, hApart, hSound⟩ := h
  cases ss with
  | nil => cases hTiles
  | cons s tail =>
      obtain ⟨kind, indent, lines⟩ := s
      cases lines with
      | nil => exact absurd rfl (hNe _ List.mem_cons_self)
      | cons first more =>
          rw [List.flatMap_cons, List.cons_append] at hTiles
          obtain ⟨rfl, hRest⟩ := List.cons.inj hTiles
          rw [List.isChain_cons] at hApart
          exact ⟨kind, indent, more, _, tail, rfl, hRest.symm, hSound.1, hApart.1, rfl,
            fun t ht => hNe t (List.mem_cons_of_mem _ ht), hApart.2, hSound.2⟩

theorem Divides.eq_nil {ss : List Segment} (h : Divides lang [] ss) : ss = [] := by
  cases ss with
  | nil => rfl
  | cons s ss =>
      have hTiles := h.tiles
      rw [List.flatMap_cons, List.append_eq_nil_iff] at hTiles
      exact absurd hTiles.1 (h.ne_nil s List.mem_cons_self)

theorem attach_of_apart {s : Segment} {ss : List Segment}
    (h : ∀ t, ss.head? = some t → Apart s t) : attach s ss = s :: ss := by
  cases ss with
  | nil => rfl
  | cons t ss =>
      rw [Segment.attach, if_neg]
      intro hBoth
      obtain ⟨hs, ht⟩ : s.kind = .code ∧ t.kind = .code := by simpa using hBoth
      exact (h t rfl).code hs ht

/-- A line that starts no comment joins the code behind it, or stands as code by itself in front of
a comment. -/
theorem Divides.attach {line : Text} {rest : List Text} {ss : List Segment}
    (h : Divides lang rest ss) (hLine : IsPlain lang line) :
    Divides lang (line :: rest) (attach ⟨.code, [], [line]⟩ ss) := by
  have hAlone : ∀ after, Sound lang ⟨.code, [], [line]⟩ after := fun after =>
    ⟨rfl, codeSound_cons.mpr (Or.inl ⟨hLine, [], [], rfl, List.forall_mem_nil _, Or.inl rfl⟩)⟩
  cases rest with
  | nil =>
      rw [h.eq_nil]
      exact divides_singleton rfl (hAlone [])
  | cons next rest =>
      obtain ⟨kind, indent, more, after, tail, rfl, rfl, hSound, hApart, hTail⟩ := h.exists_cons
      by_cases hKind : kind = .code
      · subst hKind
        have hJoined : Sound lang ⟨.code, [], line :: next :: more⟩ after :=
          ⟨rfl, codeSound_cons.mpr (Or.inl ⟨hLine, hSound.2⟩)⟩
        exact hTail.cons rfl hJoined fun t ht => .of_code rfl ((hApart t ht).code rfl)
      · have hNext : ∀ t, (⟨kind, indent, next :: more⟩ :: tail : List Segment).head? = some t →
            Apart ⟨.code, [], [line]⟩ t := by
          intro t ht
          rw [← Option.some.inj ht]
          exact .of_code rfl hKind
        rw [attach_of_apart hNext]
        exact h.cons rfl (hAlone _) hNext

/-- What follows a run is not another run of the same kind, or the first one would not have stopped
there. -/
theorem RunSound.apart {indent base marker line : Text} {more after : List Text}
    (h : RunSound lang indent base marker (line :: more) after) {ss : List Segment}
    (hDivides : Divides lang after ss) {t : Segment} (ht : ss.head? = some t) {n : Text}
    (hKind : t.kind = .lineComment n) : indent ≠ t.indent ∨ base ≠ Text.dropEndSpaces n := by
  cases after with
  | nil =>
      rw [hDivides.eq_nil] at ht
      cases ht
  | cons next after =>
      obtain ⟨kind, other, below, rest, tail, rfl, rfl, hSound, -, -⟩ := hDivides.exists_cons
      rw [← Option.some.inj ht] at hKind ⊢
      dsimp only at hKind ⊢
      subst hKind
      have hNone := h.maximal next rfl
      have hSome := RunSound.line hSound next List.mem_cons_self
      by_contra hSame
      rw [not_or, not_not, not_not] at hSame
      rw [← hSame.1, ← hSame.2] at hSome
      simp [hNone] at hSome

/-- The segments that the scan finds are a division as it should be. This is the half that says what
the scan does. -/
theorem divides_ofSource (lang : Language) (lines : List Text) :
    Divides lang lines (ofSource lang lines) := by
  induction lines using lines_induction lang with
  | nil =>
      rw [ofSource]
      exact divides_nil
  | block line rest o closing more hBlock hMore ih =>
      have hClosing := (block?_eq_some_iff_opens.mp hBlock).1
      have hSound : BlockSound lang o.indent o.opening closing (line :: rest.take more) := by
        refine blockSound_cons.mpr ⟨o.rest, ?_, closedBy_of_blockMore? hMore⟩
        rw [hBlock, ← hClosing]
      have hDivides := ih.cons (s := ⟨.blockComment o.opening closing, o.indent, _⟩) rfl hSound
        fun t _ => .of_blockComment rfl
      rw [List.take_append_drop] at hDivides
      rwa [ofSource_block hBlock hMore]
  | unclosed line rest o closing hBlock hMore =>
      have hSound : Sound lang ⟨.code, [], line :: rest⟩ [] :=
        ⟨rfl,
          codeSound_cons.mpr (Or.inr ⟨rfl, o, closing, hBlock, blockMore?_eq_none_iff.mp hMore⟩)⟩
      rw [ofSource_unclosed hBlock hMore]
      exact divides_singleton rfl hSound
  | run line rest indent marker hBlock hMatch ih =>
      have hBase := dropEndSpaces_runMarker lang indent marker rest
      have hSound := runSound_runAfter rest hBlock hMatch
      rw [← hBase] at hSound
      have hDivides := ih.cons (s := ⟨.lineComment _, indent, _⟩) rfl hSound
        fun t ht => .of_lineComment rfl fun n => hSound.apart ih ht
      rw [runAfter_append_restAfter] at hDivides
      rwa [ofSource_run hBlock hMatch]
  | code line rest hBlock hMatch ih =>
      rw [ofSource_code hBlock hMatch]
      exact ih.attach ⟨hBlock, hMatch⟩

theorem Unclosed.ofSource_cons {line : Text} {more : List Text} (h : Unclosed lang line more) :
    ofSource lang (line :: more) = [⟨.code, [], line :: more⟩] := by
  obtain ⟨o, closing, hBlock, hUnclosed⟩ := h
  exact ofSource_unclosed hBlock (blockMore?_eq_none_iff.mpr hUnclosed)

/-- Sound code is read as one segment with the code behind it, if there is any. In a division there
is none. -/
theorem CodeSound.ofSource_append {line : Text} {more after : List Text}
    (h : CodeSound lang (line :: more) after) :
    ofSource lang (line :: (more ++ after)) =
      attach ⟨.code, [], line :: more⟩ (ofSource lang after) := by
  induction more generalizing line with
  | nil =>
      rcases codeSound_cons.mp h with ⟨hLine, -⟩ | ⟨rfl, hUnclosed⟩
      · exact ofSource_code hLine.1 hLine.2
      · rw [List.append_nil, hUnclosed.ofSource_cons, ofSource]
        rfl
  | cons next more ih =>
      rcases codeSound_cons.mp h with ⟨hLine, hMore⟩ | ⟨rfl, hUnclosed⟩
      · rw [ofSource_code hLine.1 hLine.2, List.cons_append, ih hMore, attach_attach rfl rfl]
        rfl
      · rw [List.append_nil, hUnclosed.ofSource_cons, ofSource]
        rfl

/-- A sound segment is the one that the scan reads off the front, whatever kind it is and whatever
follows it. -/
theorem Sound.ofSource_append {kind : SegmentKind} {indent line : Text} {more after : List Text}
    (h : Sound lang ⟨kind, indent, line :: more⟩ after) :
    ofSource lang (line :: (more ++ after)) =
      attach ⟨kind, indent, line :: more⟩ (ofSource lang after) := by
  cases kind with
  | code =>
      obtain ⟨hIndent, hCode⟩ := h
      dsimp only at hIndent hCode
      rw [hIndent]
      exact hCode.ofSource_append
  | lineComment marker =>
      have hRun : RunSound lang indent (Text.dropEndSpaces marker) marker (line :: more) after := h
      obtain ⟨own, hMatch, hBase⟩ := hRun.exists_matchLine?
      rw [← hBase] at hRun
      obtain ⟨hMore, hAfter, hMarker⟩ := hRun.eq_run hMatch
      rw [ofSource_run (hRun.first line rfl) hMatch, hMore, hAfter, hMarker,
        attach_of_isComment rfl]
  | blockComment opening closing =>
      obtain ⟨rest, hBlock, hClosed⟩ := blockSound_cons.mp h
      rw [ofSource_block hBlock (blockMore?_of_closedBy hClosed after), List.take_left,
        List.drop_left, attach_of_isComment rfl]

/-- No other division is as it should be. The induction is on the segments of that division, and
each is found by the scan in turn. -/
theorem Divides.eq_ofSource {lines : List Text} {ss : List Segment} (h : Divides lang lines ss) :
    ss = ofSource lang lines := by
  induction ss generalizing lines with
  | nil => rw [← h.tiles, List.flatMap_nil, ofSource]
  | cons s ss ih =>
      cases lines with
      | nil => cases h.eq_nil
      | cons line rest =>
          obtain ⟨kind, indent, more, after, tail, hSplit, rfl, hSound, hApart, hTail⟩ :=
            h.exists_cons
          obtain ⟨rfl, rfl⟩ := List.cons.inj hSplit
          rw [hSound.ofSource_append, ← ih hTail, attach_of_apart hApart]

end Divides

/-- The segments of a source text are the only division of its lines in which every segment is what
it says it is and no two neighbours belong together. The language may have any tokens and
directives, overlapping or empty ones among them. -/
theorem classify_eq_iff (lang : Language) (lines : List Text) (ss : List Segment) :
    classify (some lang) lines = ss ↔ Divides lang lines ss := by
  constructor
  · rintro rfl
    exact divides_ofSource lang lines
  · intro h
    exact h.eq_ofSource.symm

end Segment

end Reflow
