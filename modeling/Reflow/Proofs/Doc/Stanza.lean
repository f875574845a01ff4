import Reflow.Doc.Printer
import Reflow.Proofs.Filled

/-!
The shape of a rewrapped structured comment: stanzas, most of them set apart by a blank line. A
decoration may fall on a line of its own inside a paragraph or an item. It then divides the comment,
and what stands below it may begin with the rest of an item, whose bullet is out of sight.
-/

namespace Reflow.Doc

/-- A line behind the comment marker: code stands right behind it, all else behind a space. The
marker of a blank line has no space behind it. -/
def commentLine (bare : Text) : Text → Text
  | [] => bare
  | c :: l => if c = '\t' then bare ++ c :: l else bare ++ ' ' :: c :: l

/-- What stands before the text of an item with this number, a bullet or the number with a dot, and
the space behind it. -/
def bullet (number : Option Text) : Text := bulletText { number, paragraphs := [] }

/-- What stands before the lines of an item below its first: blanks as wide as the indentation and
the bullet. -/
def hang (number : Option Text) : Text := List.replicate (2 + (bullet number).length) ' '

/-- The number of an item is made of digits, and of one at least. An item without a number is proper
as well. -/
def ProperNumber (number : Option Text) : Prop :=
  ∀ n, number = some n → n ≠ [] ∧ ∀ c ∈ n, isAsciiDigit c = true

/-- Lines that are read as code behind tabs: the first is no list item, the last is not blank, and
they have no indentation in common. Read again, exactly the tab is taken off them. -/
structure IsListing (ls : List Text) : Prop where
  first : ∃ l rest, ls = l :: rest ∧ l ≠ [] ∧ isItem l = false
  last : ls.getLast? ≠ some []
  blank : ∀ l ∈ ls, Text.allBlank l = true → l = []
  indent : sharedIndent ls = []

/-- The lines of a code block that was read from a comment. None of them is a decoration, as that
would have divided the comment. -/
structure IsCode (ls : List Text) : Prop extends IsListing ls where
  plain : ∀ l ∈ ls, isDecoration l = false

/-- A part of a rewrapped comment that is written without a look at its neighbours. An item has a
first line, more lines in its first paragraph, and more paragraphs. -/
inductive Stanza where
  | text (ls : List Text)
  | heading (t : Text)
  | code (ls : List Text)
  | item (number : Option Text) (l : Text) (ls : List Text) (more : List (List Text))

/-- The lines of an item below its first: the rest of its first paragraph, and the other paragraphs,
each below a blank line. -/
def itemTail (number : Option Text) (ls : List Text) (more : List (List Text)) : List Text :=
  ls.map (hang number ++ ·) ++ more.flatMap fun p => [] :: p.map (hang number ++ ·)

namespace Stanza

/-- The lines of a stanza, as they stand behind the comment marker and its space. -/
def lines : Stanza → List Text
  | text ls => ls
  | heading t => ['#' :: ' ' :: t]
  | code ls => ls.map fun l => if l.isEmpty then [] else '\t' :: l
  | item number l ls more => (' ' :: ' ' :: (bullet number ++ l)) :: itemTail number ls more

/-- The stanza is what its kind promises. Text and items are filled, each to the room that its own
margin leaves. -/
def Sound (L : Layout) (bare : Text) : Stanza → Prop
  | text ls => Filled L (textMargin bare) ls
  | heading t => t ≠ [] ∧ Text.trim t = t
  | code ls => IsCode ls
  | item number l ls more =>
      ProperNumber number ∧ Filled L (textMargin bare ++ hang number) (l :: ls) ∧
      ∀ p ∈ more, Filled L (textMargin bare ++ hang number) p

/-- Whether the second stanza may follow the first; its flag says that a blank line stands before
it. Text may have an item right below it, and items of one kind may stand close; two blocks of code
may not follow each other. -/
def Follows (p q : Bool × Stanza) : Prop :=
  match p.2, q.2 with
  | text _, item .. => True
  | item m _ _ _, item n _ _ _ => q.1 = true ∨ m.isSome = n.isSome
  | code _, code _ => False
  | _, _ => q.1 = true

end Stanza

/-- The lines of stanzas, each behind a blank line if its flag says so. -/
def pageLines (page : List (Bool × Stanza)) : List Text :=
  page.flatMap fun p => (if p.1 then [[]] else []) ++ p.2.lines

/-- Stanzas as printing leaves them on a page: each of them sound, and each allowed to follow the
one above it. -/
structure Printed (L : Layout) (bare : Text) (page : List (Bool × Stanza)) : Prop where
  sound : ∀ p ∈ page, p.2.Sound L bare
  follows : page.IsChain Stanza.Follows

theorem Printed.of_append {L : Layout} {bare : Text} {front back : List (Bool × Stanza)}
    (h : Printed L bare (front ++ back)) : Printed L bare front ∧ Printed L bare back :=
  ⟨⟨fun p hp => h.sound p (List.mem_append_left back hp), h.follows.left_of_append⟩,
    fun p hp => h.sound p (List.mem_append_right front hp), h.follows.right_of_append⟩

/-- A line below the first of an item: at least four blanks, and text behind them. That many are
needed below any bullet. -/
def Hung (l : Text) : Prop :=
  ∃ n t, l = List.replicate (n + 4) ' ' ++ t ∧ Text.allBlank t = false ∧ Text.trim t = t

theorem isAsciiDigit_iff {c : Char} : isAsciiDigit c = true ↔ 48 ≤ c.toNat ∧ c.toNat ≤ 57 := by
  simp only [isAsciiDigit, Bool.and_eq_true, decide_eq_true_eq, Char.le_def, UInt32.le_iff_toNat_le]
  exact Iff.rfl

theorem isBlank_of_isAsciiDigit {c : Char} (h : isAsciiDigit c = true) : isBlank c = false := by
  have hRange := isAsciiDigit_iff.mp h
  simp only [isBlank, Bool.or_eq_false_iff, Bool.and_eq_false_iff, decide_eq_false_iff_not,
    beq_eq_false_iff_ne]
  omega

section Bullet

variable {number : Option Text} (hNumber : ProperNumber number)
include hNumber

theorem tab_notMem_bullet : '\t' ∉ bullet number := by
  cases number with
  | none => decide
  | some n =>
      intro hMem
      rcases List.mem_append.mp hMem with hMem | hMem
      · cases (isBlank_of_isAsciiDigit ((hNumber n rfl).2 _ hMem))
      · revert hMem
        decide

theorem exists_bullet_eq_cons : ∃ c m, bullet number = c :: m ∧ isBlank c = false ∧ ' ' ∈ m := by
  cases number with
  | none => exact ⟨'-', [' '], rfl, by decide, by simp⟩
  | some n =>
      obtain ⟨hNe, hDigits⟩ := hNumber n rfl
      obtain ⟨c, m, rfl⟩ := List.exists_cons_of_ne_nil hNe
      exact ⟨c, m ++ ['.', ' '], rfl,
        isBlank_of_isAsciiDigit (hDigits c List.mem_cons_self), by simp⟩

/-- The first line of an item has the room of the lines below it, because a bullet is as wide as the
blanks below it. -/
theorem room_bullet (L : Layout) (bare : Text) :
    L.room (textMargin bare ++ [' ', ' '] ++ bullet number) =
      L.room (textMargin bare ++ hang number) := by
  rw [List.append_assoc]
  refine L.room_append_eq _ ?_ ?_ ?_
  · simpa using tab_notMem_bullet hNumber
  · rw [hang, List.mem_replicate]
    simp
  · rw [hang, List.length_append, List.length_replicate]
    rfl

/-- An item is trimmed to its bullet and its text, so the bullet is what its line is judged by. -/
theorem trim_bullet_append {l : Text} (hl : l ≠ []) (hTrim : Text.trim l = l) :
    Text.trim (' ' :: ' ' :: (bullet number ++ l)) = bullet number ++ l := by
  rw [Text.trim_cons rfl, Text.trim_cons rfl]
  refine Text.trim_eq_self_iff.mpr ⟨fun c hc => ?_, fun c hc => ?_⟩
  · obtain ⟨d, m, hBullet, hd, -⟩ := exists_bullet_eq_cons hNumber
    rw [hBullet] at hc
    exact Option.some.inj hc ▸ hd
  · rw [List.getLast?_append, Option.or_of_isSome (by simpa using hl)] at hc
    exact (Text.trim_eq_self_iff.mp hTrim).2 c hc

/-- The first line of an item is never a decoration, though other lines of it may be. -/
theorem isDecoration_bullet_append {l : Text} (hl : l ≠ []) (hTrim : Text.trim l = l) :
    isDecoration (' ' :: ' ' :: (bullet number ++ l)) = false := by
  obtain ⟨c, m, hBullet, -, hSpace⟩ := exists_bullet_eq_cons hNumber
  simp only [isDecoration, trim_bullet_append hNumber hl hTrim, Bool.and_eq_false_iff]
  refine Or.inr (List.all_eq_false.mpr ⟨' ', ?_, by decide⟩)
  simp [hBullet, hSpace]

end Bullet

theorem two_le_length_bullet (number : Option Text) : 2 ≤ (bullet number).length := by
  cases number with
  | none => exact Nat.le_refl 2
  | some n => simp [bullet, bulletText]

theorem hung_append {L : Layout} {margin : Text} {ls : List Text} (h : Filled L margin ls)
    (number : Option Text) {l : Text} (hl : l ∈ ls) : Hung (hang number ++ l) := by
  have hLength := two_le_length_bullet number
  refine ⟨(bullet number).length - 2, l, ?_, h.allBlank_eq_false hl, (h.line hl).2.1⟩
  rw [hang]
  congr 2
  omega

/-- The lines of an item below its first are blank or hung. Cut off from their bullet, they are
still lines of this kind. -/
theorem hung_of_mem_itemTail {L : Layout} {margin : Text} {number : Option Text} {l : Text}
    {ls : List Text} {more : List (List Text)} (hFirst : Filled L margin (l :: ls))
    (hMore : ∀ p ∈ more, Filled L margin p) {m : Text} (hm : m ∈ itemTail number ls more) :
    m = [] ∨ Hung m := by
  rcases List.mem_append.mp hm with hm | hm
  · obtain ⟨k, hk, rfl⟩ := List.mem_map.mp hm
    exact Or.inr (hung_append hFirst number (List.mem_cons_of_mem l hk))
  · obtain ⟨p, hp, hm⟩ := List.mem_flatMap.mp hm
    rcases List.mem_cons.mp hm with rfl | hm
    · exact Or.inl rfl
    · obtain ⟨k, hk, rfl⟩ := List.mem_map.mp hm
      exact Or.inr (hung_append (hMore p hp) number hk)

theorem ne_nil_of_isDecoration {d : Text} (hd : isDecoration d = true) : d ≠ [] := by
  rintro rfl
  cases hd

theorem isDecoration_tab_cons (l : Text) : isDecoration ('\t' :: l) = isDecoration l := by
  rw [isDecoration, isDecoration, Text.trim_cons rfl]

theorem trim_heading {t : Text} (hNe : t ≠ []) (hTrim : Text.trim t = t) :
    Text.trim ('#' :: ' ' :: t) = '#' :: ' ' :: t := by
  refine Text.trim_eq_self_iff.mpr ⟨fun c hc => ?_, fun c hc => ?_⟩
  · rw [← Option.some.inj hc]
    decide
  · obtain ⟨d, m, rfl⟩ := List.exists_cons_of_ne_nil hNe
    rw [List.getLast?_cons_cons, List.getLast?_cons_cons] at hc
    exact (Text.trim_eq_self_iff.mp hTrim).2 c hc

/-- A heading with text is no decoration, since there is a space in it, which no ruler has. -/
theorem isDecoration_heading {t : Text} (hNe : t ≠ []) (hTrim : Text.trim t = t) :
    isDecoration ('#' :: ' ' :: t) = false := by
  simp only [isDecoration, trim_heading hNe hTrim, Bool.and_eq_false_iff]
  exact Or.inr (List.all_eq_false.mpr ⟨' ', by simp, by decide⟩)

theorem hang_append_ne_nil (number : Option Text) (l : Text) : hang number ++ l ≠ [] := by
  rw [hang, Nat.add_comm, List.replicate_succ]
  simp

theorem isItem_eq_of_trim {a b : Text} (h : Text.trim a = Text.trim b) : isItem a = isItem b := by
  rw [isItem, isItem, item?, item?, h]

theorem isItem_tab_cons (l : Text) : isItem ('\t' :: l) = isItem l :=
  isItem_eq_of_trim (Text.trim_cons rfl l)

/-- Code behind tabs starts and ends with a line that is not blank, and its first line is not taken
for an item. -/
theorem IsListing.edges {ls : List Text} (h : IsListing ls) :
    (∃ x xs, (Stanza.code ls).lines = x :: xs ∧ x.head? = some '\t' ∧ isItem x = false) ∧
      (Stanza.code ls).lines.getLast? ≠ some [] := by
  constructor
  · obtain ⟨x, xs, rfl, hNe, hItem⟩ := h.first
    refine ⟨'\t' :: x, xs.map fun l => if l.isEmpty then [] else '\t' :: l, ?_, rfl, ?_⟩
    · rw [Stanza.lines, List.map_cons, if_neg (by simpa using hNe)]
    · rw [isItem_tab_cons, hItem]
  · intro hLast
    rw [Stanza.lines, List.getLast?_map, Option.map_eq_some_iff] at hLast
    obtain ⟨l, hl, hNil⟩ := hLast
    split at hNil
    next hEmpty => exact h.last (by rw [hl, List.isEmpty_iff.mp hEmpty])
    · cases hNil

theorem getLast?_map_hang_ne (number : Option Text) (ls : List Text) :
    (ls.map (hang number ++ ·)).getLast? ≠ some [] := by
  intro hLast
  rw [List.getLast?_map, Option.map_eq_some_iff] at hLast
  obtain ⟨t, -, hNil⟩ := hLast
  exact hang_append_ne_nil number t hNil

theorem getLast?_append_paragraphs_ne (number : Option Text) {ps : List (List Text)}
    {front : List Text} (hps : ∀ p ∈ ps, p ≠ []) (hFront : front.getLast? ≠ some []) :
    (front ++ ps.flatMap fun p => [] :: p.map (hang number ++ ·)).getLast? ≠ some [] := by
  induction ps generalizing front with
  | nil => simpa using hFront
  | cons p ps ih =>
      obtain ⟨hp, hRest⟩ := List.forall_mem_cons.mp hps
      rw [List.flatMap_cons, ← List.append_assoc]
      refine ih hRest fun hLast => getLast?_map_hang_ne number p ?_
      obtain ⟨t, ts, rfl⟩ := List.exists_cons_of_ne_nil hp
      rwa [List.getLast?_append_of_ne_nil _ (by simp), List.map_cons,
        List.getLast?_cons_cons] at hLast

/-- A stanza starts and ends with a line that is not blank, so blank lines between stanzas are not
confused with lines inside. -/
theorem Stanza.edges {L : Layout} {bare : Text} {s : Stanza} (hs : s.Sound L bare) :
    (∃ x xs, s.lines = x :: xs ∧ x ≠ []) ∧ s.lines.getLast? ≠ some [] := by
  cases s with
  | text ls =>
      obtain ⟨x, xs, rfl⟩ := List.exists_cons_of_ne_nil hs.ne_nil
      refine ⟨⟨x, xs, rfl, hs.line_ne_nil List.mem_cons_self⟩, fun hLast => ?_⟩
      exact hs.visible (List.mem_of_getLast? hLast)
  | heading t => exact ⟨⟨_, [], rfl, by simp⟩, by simp [lines]⟩
  | code ls =>
      obtain ⟨⟨x, xs, hLines, hTab, -⟩, hLast⟩ := hs.toIsListing.edges
      refine ⟨⟨x, xs, hLines, ?_⟩, hLast⟩
      rintro rfl
      cases hTab
  | item number l ls more =>
      refine ⟨⟨_, _, rfl, by simp⟩, ?_⟩
      rw [lines, itemTail, ← List.cons_append]
      refine getLast?_append_paragraphs_ne number (fun p hp => (hs.2.2 p hp).ne_nil) fun hLast => ?_
      cases ls with
      | nil => simp at hLast
      | cons t ts =>
          rw [List.map_cons, List.getLast?_cons_cons] at hLast
          exact getLast?_map_hang_ne number (t :: ts) hLast

end Reflow.Doc
