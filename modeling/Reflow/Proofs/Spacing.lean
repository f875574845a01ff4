import Reflow.Proofs.Wrap

/-!
Text whose words are set apart by single spaces. Wrapping such text settles it: every line is
trimmed and every break is forced, so no part of the wrapped lines is changed by wrapping it again.
-/

namespace Reflow

open Packing

/-- Blank edges aside, the only blanks of a line are single spaces. A tab between two words is not
allowed, while indentation and trailing blanks may be anything. -/
def SingleSpaced (l : Text) : Prop :=
  (∀ c ∈ Text.trim l, isBlank c = true → c = ' ') ∧
    (Text.trim l).IsChain fun a b => a = ' ' → b ≠ ' '

instance (l : Text) : Decidable (SingleSpaced l) :=
  have : Decidable (∀ c ∈ Text.trim l, isBlank c = true → c = ' ') := List.decidableBAll _ _
  inferInstanceAs (Decidable (_ ∧ _))

/-- What is dropped from the front of two lists together is dropped from the first alone, if the
second does not go on with the class. -/
theorem dropWhile_append_of_head {α : Type} {p : α → Bool} (xs : List α) {ys : List α}
    (h : ∀ y, ys.head? = some y → p y = false) :
    (xs ++ ys).dropWhile p = xs.dropWhile p ++ ys := by
  have hStop : ys.dropWhile p = ys := by
    cases ys with
    | nil => rfl
    | cons y ys => simp [h y rfl]
  rw [List.dropWhile_append]
  split
  next hEmpty => rw [hStop, List.isEmpty_iff.mp hEmpty, List.nil_append]
  · rfl

theorem takeWhile_append_of_head {α : Type} {p : α → Bool} (xs : List α) {ys : List α}
    (h : ∀ y, ys.head? = some y → p y = false) : (xs ++ ys).takeWhile p = xs.takeWhile p := by
  have hStop : ys.takeWhile p = [] := by
    cases ys with
    | nil => rfl
    | cons y ys => simp [h y rfl]
  rw [List.takeWhile_append, hStop]
  split
  next hAll => rw [List.append_nil, (List.takeWhile_prefix p).eq_of_length hAll]
  · rfl

/-- What trimming keeps of a part of a text is part of what it keeps of the text. Parts of a line
that are cut off at a token are compared with the line by this. -/
theorem Text.trim_isInfix {x l : Text} (h : x <:+: l) : trim x <:+: trim l := by
  obtain ⟨a, b, rfl⟩ := h
  obtain ⟨front, back, -, -, hSplit⟩ := exists_eq_append_trim x
  by_cases hEmpty : trim x = []
  · rw [hEmpty]
    exact List.nil_infix
  have hStart :
      trimStart (a ++ x ++ b) = (a ++ front).dropWhile isBlank ++ (trim x ++ (back ++ b)) := by
    have hLine : a ++ x ++ b = (a ++ front) ++ (trim x ++ (back ++ b)) := by
      conv => lhs; rw [hSplit]
      simp only [List.append_assoc]
    rw [hLine, trimStart]
    refine dropWhile_append_of_head _ fun c hc => isBlank_head_trim (t := x) ?_
    rwa [List.head?_append, Option.or_of_isSome (by simpa using hEmpty)] at hc
  have hEnd : ∃ rest, trim (a ++ x ++ b) = (a ++ front).dropWhile isBlank ++ trim x ++ rest := by
    refine ⟨((back ++ b).reverse.dropWhile isBlank).reverse, ?_⟩
    rw [trim, hStart, ← List.append_assoc, trimEnd, dropEndWhile, List.reverse_append,
      dropWhile_append_of_head, List.reverse_append, List.reverse_reverse]
    intro c hc
    rw [List.head?_reverse, List.getLast?_append,
      Option.or_of_isSome (by simpa using hEmpty)] at hc
    exact isBlank_getLast_trim hc
  obtain ⟨rest, hRest⟩ := hEnd
  rw [hRest]
  exact ⟨_, rest, rfl⟩

theorem isChain_of_isInfix {α : Type} {R : α → α → Prop} {xs ys : List α} (hys : ys.IsChain R)
    (h : xs <:+: ys) : xs.IsChain R := by
  obtain ⟨front, back, rfl⟩ := h
  exact hys.left_of_append.right_of_append

/-- A part of a single-spaced line is single-spaced, wherever it is cut, as its edges do not
count. -/
theorem SingleSpaced.of_isInfix {x l : Text} (hl : SingleSpaced l) (h : x <:+: l) :
    SingleSpaced x := by
  have hTrim := Text.trim_isInfix h
  exact ⟨fun c hc => hl.1 c (hTrim.subset hc), isChain_of_isInfix hl.2 hTrim⟩

/-- A word: at least one character, and none of them blank. This asks for more than a token does,
whose word may hold blanks other than spaces and tabs. -/
structure IsWord (w : Text) : Prop where
  ne_nil : w ≠ []
  visible : ∀ c ∈ w, isBlank c = false

/-- A word is a text of one token, so it can be put between single spaces without touching its
neighbours. -/
theorem IsWord.bounded {w : Text} (h : IsWord w) : Token.Bounded w where
  words := by
    obtain ⟨c, rest, hWord⟩ := List.exists_cons_of_ne_nil h.ne_nil
    rcases Token.ofText_cases w with hGaps | ⟨first, after, hFirst, hAfter, hSplit⟩
    · have hc : c ∈ w := by simp [hWord]
      have hGap := isBlank_of_isGap (hGaps c hc)
      rw [h.visible c hc] at hGap
      cases hGap
    · rw [hSplit, Token.ofText_append hFirst hAfter]
      simp
  head hc := not_isGap_of_not_isBlank (h.visible _ (List.mem_of_mem_head? hc))
  getLast hc := not_isGap_of_not_isBlank (h.visible _ (List.mem_of_getLast? hc))

theorem IsWord.ofText {w : Text} (h : IsWord w) : Token.ofText w = [⟨[], w⟩] := by
  have hProper : Token.Proper ⟨[], w⟩ :=
    ⟨h.ne_nil, fun c hc => not_isGap_of_not_isBlank (h.visible c hc), nofun⟩
  have hRead : Token.ofText (Token.text ⟨[], w⟩ ++ []) = _ := Token.ofText_append hProper nofun
  rwa [List.append_nil, Token.ofText_eq_nil (t := []) nofun] at hRead

theorem IsWord.words {w : Text} (h : IsWord w) : Text.words w = [w] := by
  have hSplit : w.splitOnP isBlank = [w] := List.splitOnP_eq_singleton h.visible
  simp [Text.words, hSplit, h.ne_nil]

/-- If a separator stands neither at the end nor twice in a row, only the first part may be empty.
The induction needs this form, since in its step the list may start with the separator. -/
theorem exists_splitOn_eq_cons {α : Type} [BEq α] [LawfulBEq α] {a : α} {xs : List α}
    (hNe : xs ≠ []) (hLast : xs.getLast? ≠ some a) (hChain : xs.IsChain fun x y => x = a → y ≠ a) :
    ∃ first rest, xs.splitOn a = first :: rest ∧ (xs.head? ≠ some a → first ≠ []) ∧
      ∀ part ∈ rest, part ≠ [] := by
  induction xs with
  | nil => exact absurd rfl hNe
  | cons x xs ih =>
      rw [List.splitOn_cons_eq_if_modifyHead]
      cases xs with
      | nil =>
          have hx : x ≠ a := by simpa using hLast
          exact ⟨[x], [], by simp [hx], by simp, by simp⟩
      | cons y ys =>
          rw [List.getLast?_cons_cons] at hLast
          obtain ⟨hNext, hRest⟩ := List.isChain_cons_cons.mp hChain
          obtain ⟨first, rest, hSplit, hFirst, hParts⟩ := ih (by simp) hLast hRest
          rw [hSplit]
          split
          next hx =>
            refine ⟨[], first :: rest, rfl, fun hHead => absurd (by simpa using hx) hHead, ?_⟩
            rw [List.forall_mem_cons]
            exact ⟨hFirst (by simpa using hNext (by simpa using hx)), hParts⟩
          · exact ⟨x :: first, rest, rfl, by simp, hParts⟩

/-- A separator that stands neither at an end nor twice in a row leaves no empty part. Spaces
between words and empty lines between paragraphs are such separators. -/
theorem ne_nil_of_mem_splitOn {α : Type} [BEq α] [LawfulBEq α] {a : α} {xs : List α} (hNe : xs ≠ [])
    (hHead : xs.head? ≠ some a) (hLast : xs.getLast? ≠ some a)
    (hChain : xs.IsChain fun x y => x = a → y ≠ a) {part : List α} (h : part ∈ xs.splitOn a) :
    part ≠ [] := by
  obtain ⟨first, rest, hSplit, hFirst, hRest⟩ := exists_splitOn_eq_cons hNe hLast hChain
  rw [hSplit] at h
  rcases List.mem_cons.mp h with rfl | h
  · exact hFirst hHead
  · exact hRest part h

/-- A single-spaced line is its words with a space between each two. A blank line has no words, and
is trimmed to nothing. -/
theorem SingleSpaced.exists_words {l : Text} (h : SingleSpaced l) :
    ∃ ws : List Text, Text.trim l = List.intercalate [' '] ws ∧ ∀ w ∈ ws, IsWord w := by
  by_cases hEmpty : Text.trim l = []
  · exact ⟨[], by rw [hEmpty]; rfl, nofun⟩
  refine ⟨(Text.trim l).splitOn ' ', (List.intercalate_splitOn ' ').symm, fun w hw => ⟨?_, ?_⟩⟩
  · refine ne_nil_of_mem_splitOn hEmpty (fun hHead => ?_) (fun hLast => ?_) h.2 hw
    · cases Text.isBlank_head_trim hHead
    · cases Text.isBlank_getLast_trim hLast
  · intro c hc
    rw [List.splitOn_eq_splitOnP] at hw
    obtain ⟨hMem, hSpace⟩ := mem_of_mem_splitOnP hw hc
    cases hBlank : isBlank c with
    | false => rfl
    | true => simp [h.1 c hMem hBlank] at hSpace

theorem flatMap_append_intercalate {α : Type} {sep : List α} {wss : List (List (List α))}
    (h : ∀ ws ∈ wss, ws ≠ []) :
    (wss.map (List.intercalate sep)).flatMap (sep ++ ·) = wss.flatten.flatMap (sep ++ ·) := by
  induction wss with
  | nil => rfl
  | cons ws wss ih =>
      obtain ⟨w, rest, rfl⟩ := List.exists_cons_of_ne_nil (h ws List.mem_cons_self)
      rw [List.map_cons, List.flatMap_cons, ih fun v hv => h v (List.mem_cons_of_mem _ hv),
        intercalate_cons_eq, List.flatten_cons, List.flatMap_append, List.flatMap_cons]
      simp only [List.append_assoc]

/-- Words joined to lines, and these joined again, are all the words joined, if there is a word on
each line. Breaking lines at single spaces is undone this way. -/
theorem intercalate_flatten {α : Type} {sep : List α} {wss : List (List (List α))}
    (h : ∀ ws ∈ wss, ws ≠ []) :
    List.intercalate sep (wss.map (List.intercalate sep)) = List.intercalate sep wss.flatten := by
  cases wss with
  | nil => rfl
  | cons ws wss =>
      obtain ⟨w, rest, rfl⟩ := List.exists_cons_of_ne_nil (h ws List.mem_cons_self)
      rw [List.map_cons, intercalate_cons_eq,
        flatMap_append_intercalate fun v hv => h v (List.mem_cons_of_mem _ hv),
        intercalate_cons_eq, List.flatten_cons, List.cons_append, intercalate_cons_eq,
        List.flatMap_append, List.append_assoc]

theorem exists_eq_map_of_forall {α β : Type} {f : β → α} {P : β → Prop} {xs : List α}
    (h : ∀ x ∈ xs, ∃ y, x = f y ∧ P y) : ∃ ys : List β, xs = ys.map f ∧ ∀ y ∈ ys, P y := by
  induction xs with
  | nil => exact ⟨[], rfl, nofun⟩
  | cons x xs ih =>
      obtain ⟨⟨y, rfl, hy⟩, hRest⟩ := List.forall_mem_cons.mp h
      obtain ⟨ys, rfl, hys⟩ := ih hRest
      exact ⟨y :: ys, rfl, List.forall_mem_cons.mpr ⟨hy, hys⟩⟩

/-- A paragraph of single-spaced lines is its words with a space between each two, so nothing of how
its lines were broken is left in it. -/
theorem exists_words_of_mem_paragraphs {t p : Text} (ht : ∀ l ∈ Text.lines t, SingleSpaced l)
    (hp : p ∈ paragraphs t) :
    ∃ ws : List Text, p = List.intercalate [' '] ws ∧ ∀ w ∈ ws, IsWord w := by
  obtain ⟨l, ls, rfl, hLines⟩ := exists_of_mem_paragraphs hp
  have hWords : ∀ m ∈ l :: ls, ∃ ws : List Text, m = List.intercalate [' '] ws ∧ ws ≠ [] ∧
      ∀ w ∈ ws, IsWord w := by
    intro m hm
    obtain ⟨hNe, source, hSource, rfl⟩ := hLines m hm
    obtain ⟨ws, hJoin, hws⟩ := (ht source hSource).exists_words
    refine ⟨ws, hJoin, ?_, hws⟩
    rintro rfl
    exact hNe hJoin
  obtain ⟨wss, hMap, hwss⟩ := exists_eq_map_of_forall hWords
  rw [hMap]
  refine ⟨wss.flatten, intercalate_flatten fun ws hws => (hwss ws hws).1, fun w hw => ?_⟩
  obtain ⟨ws, hMem, hw⟩ := List.mem_flatten.mp hw
  exact (hwss ws hMem).2 w hw

theorem flatten_map_behindSpace {ws : List Text} (hws : ∀ w ∈ ws, IsWord w) :
    (ws.map fun w => behindSpace (Token.ofText w)).flatten = ws.map fun w => ⟨[' '], w⟩ := by
  induction ws with
  | nil => rfl
  | cons w ws ih =>
      rw [List.map_cons, List.flatten_cons, (hws w List.mem_cons_self).ofText,
        ih fun v hv => hws v (List.mem_cons_of_mem w hv)]
      rfl

/-- The words of single-spaced text are read as they stand, behind single spaces. The first word has
no gap, which is why only the others are spoken of. -/
theorem ofText_intercalate_words {ws : List Text} (hws : ∀ w ∈ ws, IsWord w) :
    (Token.ofText (List.intercalate [' '] ws)).map Token.word = ws ∧
      ∀ u ∈ (Token.ofText (List.intercalate [' '] ws)).tail, u.gap = [' '] := by
  rw [ofText_intercalate fun w hw => (hws w hw).bounded]
  cases ws with
  | nil => exact ⟨rfl, nofun⟩
  | cons w ws =>
      have hRest := fun v hv => hws v (List.mem_cons_of_mem w hv)
      rw [rejoin, List.flatten_cons, flatten_map_behindSpace hRest,
        (hws w List.mem_cons_self).ofText]
      refine ⟨?_, fun u hu => ?_⟩
      · rw [List.map_append, List.map_map]
        exact congrArg (w :: ·) (List.map_id ws)
      · obtain ⟨v, -, rfl⟩ := List.mem_map.mp hu
        rfl

/-- A line that starts and ends with a word is trimmed. Words are meant here in the strict sense: a
form feed at the end of a token would be removed. -/
theorem trim_lineText (L : Layout) {line : List Token} (hLine : ∀ u ∈ line, IsWord u.word) :
    Text.trim (lineText L line) = lineText L line := by
  refine Text.trim_eq_self_iff.mpr ⟨fun c hc => ?_, fun c hc => ?_⟩
  · cases line with
    | nil => cases hc
    | cons t ts =>
        have ht := hLine t List.mem_cons_self
        rw [lineText, List.head?_append, Option.or_of_isSome (by simpa using ht.ne_nil)] at hc
        exact ht.visible c (List.mem_of_mem_head? hc)
  · obtain ⟨u, hu, hLast⟩ := exists_getLast_lineText L (fun u hu => (hLine u hu).ne_nil) hc
    exact (hLine u hu).visible c (List.mem_of_getLast? hLast)

/-- Where every gap is one space, a forced break stays forced when it is read as one. This is what
fails for wide gaps, and it is the only reason why a second pass can differ. -/
theorem breaksForced_packed {L : Layout} {margin p : Text}
    (hGaps : ∀ u ∈ (Token.ofText p).tail, u.gap = [' ']) :
    BreaksForced L (L.room margin) (packed L margin p) := by
  have hGreedy : Greedy L (L.room margin) (divide L margin margin (Token.ofText p)) :=
    greedy_divide rfl rfl _
  have hFlatten := flatten_divide L margin margin (Token.ofText p)
  have hTail : ∀ b ∈ (divide L margin margin (Token.ofText p)).tail, ∀ u ∈ b, u.gap = [' '] := by
    intro b hb u hu
    refine hGaps u ?_
    rw [← hFlatten]
    cases hLines : divide L margin margin (Token.ofText p) with
    | nil => simp [hLines] at hb
    | cons first rest =>
        obtain ⟨t, ts, rfl⟩ :=
          List.exists_cons_of_ne_nil (hGreedy.fits first (by simp [hLines])).ne_nil
        rw [hLines] at hb
        exact List.mem_append_right ts (List.mem_flatten_of_mem hb hu)
  rw [packed, BreaksForced, List.isChain_map]
  refine hGreedy.forced.imp_of_mem_tail_imp fun a b ha hb hForced => ?_
  obtain ⟨t, ts, rfl⟩ := List.exists_cons_of_ne_nil (hGreedy.fits a ha).ne_nil
  obtain ⟨u, us, rfl⟩ :=
    List.exists_cons_of_ne_nil (hGreedy.fits b (List.mem_of_mem_tail hb)).ne_nil
  have hGap : ({ u with gap := [' '] } : Token) = u := by
    rw [← hTail _ hb u List.mem_cons_self]
  have hWide := hForced u rfl
  rw [← lineWidth_reread, reread, ← hGap] at hWide
  rw [fitsBehind, ofText_lineText L fun v => proper_of_mem_divide ha,
    ofText_lineText L fun v => proper_of_mem_divide (List.mem_of_mem_tail hb)]
  simpa [reread] using hWide

/-- Lines that no pass changes, whichever part of them it reads: written and trimmed lines with
forced breaks, set apart by single empty lines. Each condition is one about neighbours or single
lines, so that it is inherited by every part of the lines. -/
structure Settled (L : Layout) (margin : Text) (ls : List Text) : Prop where
  line : ∀ l ∈ ls, l = [] ∨ Written L (L.room margin) l ∧ Text.trim l = l ∧ '\n' ∉ l
  single : ls.IsChain fun a b => a = [] → b ≠ []
  forced : BreaksForced L (L.room margin) ls

/-- Any stretch of settled lines is settled, so a reader that starts in their middle finds nothing
to change either. -/
theorem Settled.of_isInfix {L : Layout} {margin : Text} {ls ms : List Text}
    (h : Settled L margin ls) (hInfix : ms <:+: ls) : Settled L margin ms :=
  ⟨fun l hl => h.line l (hInfix.subset hl), isChain_of_isInfix h.single hInfix,
    isChain_of_isInfix h.forced hInfix⟩

theorem isChain_single_intercalate {gs : List (List Text)} (hNe : ∀ g ∈ gs, g ≠ [])
    (hNil : ∀ g ∈ gs, [] ∉ g) : (List.intercalate [[]] gs).IsChain fun a b => a = [] → b ≠ [] := by
  have hGroup : ∀ g ∈ gs, g.IsChain fun a b => a = [] → b ≠ [] := by
    intro g hg
    refine List.Pairwise.isChain (List.pairwise_of_forall_mem_list fun a ha b _ hEq => ?_)
    exact absurd (hEq ▸ ha) (hNil g hg)
  induction gs with
  | nil => exact .nil
  | cons g gs ih =>
      cases gs with
      | nil => simpa using hGroup g List.mem_cons_self
      | cons k gs =>
          have hRest := ih (fun m hm => hNe m (List.mem_cons_of_mem g hm))
            (fun m hm => hNil m (List.mem_cons_of_mem g hm))
            fun m hm => hGroup m (List.mem_cons_of_mem g hm)
          have hHead : ∀ b, (List.intercalate [[]] (k :: gs)).head? = some b → b ≠ [] := by
            rintro b hb rfl
            rw [intercalate_cons_eq, List.head?_append,
              Option.or_of_isSome (by simpa using hNe k (by simp))] at hb
            exact hNil k (by simp) (List.mem_of_mem_head? hb)
          rw [List.intercalate_cons_cons, List.append_assoc, List.singleton_append,
            List.isChain_append, List.isChain_cons]
          refine ⟨hGroup g List.mem_cons_self, ⟨fun b hb _ => hHead b hb, hRest⟩, ?_⟩
          intro a ha b _ hEq
          exact absurd (hEq ▸ List.mem_of_getLast? ha) (hNil g List.mem_cons_self)

/-- Wrapping single-spaced text settles it, however narrow the page. The condition is about all
lines of the text, blank ones among them, which meet it. -/
theorem settled_wrapped (L : Layout) (margin : Text) {t : Text}
    (ht : ∀ l ∈ Text.lines t, SingleSpaced l) : Settled L margin (wrapped L margin t) := by
  have hPacked : ∀ g ∈ (paragraphs t).map (packed L margin),
      BreaksForced L (L.room margin) g ∧ ∀ l ∈ g, Text.trim l = l := by
    intro g hg
    obtain ⟨p, hp, rfl⟩ := List.mem_map.mp hg
    obtain ⟨ws, rfl, hws⟩ := exists_words_of_mem_paragraphs ht hp
    obtain ⟨hWords, hGaps⟩ := ofText_intercalate_words hws
    refine ⟨breaksForced_packed hGaps, fun l hl => ?_⟩
    obtain ⟨line, hLine, rfl⟩ := List.mem_map.mp hl
    refine trim_lineText L fun u hu => hws u.word ?_
    rw [← hWords, ← flatten_divide L margin margin (Token.ofText (List.intercalate [' '] ws))]
    exact List.mem_map_of_mem (List.mem_flatten_of_mem hLine hu)
  have hFeed : ∀ l ∈ wrapped L margin t, '\n' ∉ l := fun l hl hMem =>
    (mem_of_mem_wrapped hl hMem).elim nofun fun h => h.2 rfl
  have hWritten :
      ∀ g ∈ (paragraphs t).map (packed L margin), ∀ l ∈ g, Written L (L.room margin) l := by
    intro g hg l hl
    obtain ⟨p, -, rfl⟩ := List.mem_map.mp hg
    exact written_of_mem_packed hl
  refine ⟨fun l hl => ?_, ?_, ?_⟩
  · rcases mem_intercalate hl with rfl | ⟨g, hg, hMem⟩
    · exact Or.inl rfl
    · exact Or.inr ⟨hWritten g hg l hMem, (hPacked g hg).2 l hMem, hFeed l hl⟩
  · refine isChain_single_intercalate (fun g hg => ?_) fun g hg hNil =>
      (hWritten g hg [] hNil).bounded.ne_nil rfl
    obtain ⟨p, hp, rfl⟩ := List.mem_map.mp hg
    exact packed_ne_nil (ofText_ne_nil_of_mem_paragraphs hp)
  · exact (isChain_intercalate_iff (fitsBehind_nil_left L _) (fitsBehind_nil_right L _) _).mpr
      fun g hg => (hPacked g hg).1

namespace Settled

variable {L : Layout} {margin : Text} {ls : List Text} (h : Settled L margin ls)
include h

/-- Among settled lines blank and empty are the same, as the others are trimmed. -/
theorem eq_nil_of_allBlank {l : Text} (hl : l ∈ ls) (hBlank : Text.allBlank l = true) : l = [] := by
  rcases h.line l hl with hNil | ⟨-, hTrim, -⟩
  · exact hNil
  · rw [← hTrim, Text.trim_eq_nil_iff.mpr hBlank]

/-- Settled lines with text at both ends are groups, which wrapping finds again. An empty line at an
end would make an empty group. -/
theorem groups (hNe : ls ≠ []) (hHead : ls.head? ≠ some []) (hLast : ls.getLast? ≠ some []) :
    Groups L (L.room margin) (ls.splitOn []) := by
  have hLine : ∀ g ∈ ls.splitOn [], ∀ l ∈ g, Written L (L.room margin) l ∧ Text.trim l = l ∧
      '\n' ∉ l := by
    intro g hg l hl
    rw [List.splitOn_eq_splitOnP] at hg
    obtain ⟨hMem, hNil⟩ := mem_of_mem_splitOnP hg hl
    rcases h.line l hMem with rfl | hLine
    · simp at hNil
    · exact hLine
  exact ⟨List.splitOn_ne_nil _ _, fun g hg => ne_nil_of_mem_splitOn hNe hHead hLast h.single hg,
    fun g hg l hl => (hLine g hg l hl).1, fun g hg l hl => (hLine g hg l hl).2.2⟩

theorem trim_eq_self {l : Text} (hl : l ∈ ls) : Text.trim l = l := by
  rcases h.line l hl with rfl | ⟨-, hTrim, -⟩
  · rfl
  · exact hTrim

/-- Wrapping settled lines again changes nothing. Lines without any text are left out, since they
are wrapped to a single margin. -/
theorem wrapped_eq (hNe : ls ≠ []) (hHead : ls.head? ≠ some []) (hLast : ls.getLast? ≠ some []) :
    wrapped L margin (Text.unlines ls) = ls := by
  have hJoin : List.intercalate [[]] (ls.splitOn []) = ls := List.intercalate_splitOn []
  have hSame := (h.groups hNe hHead hLast).wrapped_eq_iff
  rw [hJoin] at hSame
  exact (hSame fun l => h.trim_eq_self).mpr h.forced

end Settled

end Reflow
