import Mathlib.Data.List.Basic
import Reflow.Doc.Parser
import Reflow.Proofs.Inline
import Reflow.Proofs.Paragraph

/-!
What blocks and items are made of. A block is read from the lines of one span. An item of a list
begins with an entry that has its number, and its paragraphs are texts of entries, divided at the
blank ones.
-/

namespace Reflow.Doc

/-- Every block is read from one of the spans. Whether a blank line stands above it is all that its
neighbours have to do with it. -/
theorem exists_span_of_mem_blocksFrom {stop : Nat} {ss : List Span} {b : Block}
    (hb : b ∈ blocksFrom stop ss) : ∃ s ∈ ss, ∃ detached, b = Block.ofSpan detached s := by
  induction ss generalizing stop with
  | nil => cases hb
  | cons s ss ih =>
      cases List.mem_cons.mp hb with
      | inl hFirst => exact ⟨s, List.mem_cons_self, _, hFirst⟩
      | inr hLater =>
          obtain ⟨r, hr, hBlock⟩ := ih hLater
          exact ⟨r, List.mem_cons_of_mem s hr, hBlock⟩

/-- A blank entry divides paragraphs. Several of them in a row divide no more than one. -/
theorem itemParagraphs_append_blank (front back : List Entry) :
    itemParagraphs (front ++ .blank :: back) = itemParagraphs front ++ itemParagraphs back := by
  have hSplit : ((front ++ .blank :: back).map Entry.text?).splitOnP Option.isNone =
      (front.map Entry.text?).splitOnP Option.isNone ++
        (back.map Entry.text?).splitOnP Option.isNone := by
    rw [List.map_append, List.map_cons]
    exact List.splitOnP_append_cons _ _ rfl
  rw [itemParagraphs, hSplit, List.map_append, List.filter_append, List.map_append]
  rfl

/-- A paragraph is made of texts of the entries, and of one at least. Put on lines of their own they
are the text that was parsed. -/
theorem exists_texts_of_mem_itemParagraphs {entries : List Entry} {p : List Inline.Span}
    (hp : p ∈ itemParagraphs entries) :
    ∃ texts, texts ≠ [] ∧ Inline.flatten p = Text.unlines texts ∧
      ∀ t ∈ texts, ∃ e ∈ entries, e.text? = some t := by
  obtain ⟨texts, hTexts, rfl⟩ := List.mem_map.mp hp
  obtain ⟨hMem, hNe⟩ := List.mem_filter.mp hTexts
  obtain ⟨part, hPart, rfl⟩ := List.mem_map.mp hMem
  refine ⟨_, by simpa using hNe, Inline.flatten_parse _, ?_⟩
  intro t ht
  obtain ⟨o, ho, hSome⟩ := List.mem_filterMap.mp ht
  obtain ⟨e, he, hText⟩ := List.mem_map.mp (mem_of_mem_splitOnP hPart ho).1
  exact ⟨e, he, hText.trans hSome⟩

/-- Where an entry has text there is a paragraph, so text is not lost between items. -/
theorem itemParagraphs_ne_nil_of_mem {entries : List Entry} {e : Entry} {t : Text}
    (he : e ∈ entries) (ht : e.text? = some t) : itemParagraphs entries ≠ [] := by
  intro hNil
  have hParts : ∀ part ∈ (entries.map Entry.text?).splitOnP Option.isNone,
      part.flatMap Option.toList = [] := by
    intro part hPart
    rw [itemParagraphs, List.map_eq_nil_iff, List.filter_eq_nil_iff] at hNil
    have hEmpty := hNil _ (List.mem_map_of_mem hPart)
    apply (List.filterMap_eq_flatMap_toList id part).symm.trans
    simpa using hEmpty
  -- The parts hold all texts together.
  have hTexts : (entries.map Entry.text?).flatMap Option.toList = [] := by
    rw [← flatMap_splitOnP (p := Option.isNone) (by simp), List.flatMap_eq_nil_iff]
    exact hParts
  have hMem : t ∈ (entries.map Entry.text?).flatMap Option.toList :=
    List.mem_flatMap.mpr ⟨some t, ht ▸ List.mem_map_of_mem he, by simp⟩
  rw [hTexts] at hMem
  cases hMem

theorem itemParagraphs_ne_nil (t : Text) (entries : List Entry) :
    itemParagraphs (.text t :: entries) ≠ [] :=
  itemParagraphs_ne_nil_of_mem List.mem_cons_self rfl

/-- The first entry of an item has its number, and the others are entries as well. Which entries
belong to the item is not said. -/
theorem exists_entries_of_mem_ofEntries {entries : List Entry} {item : Item}
    (h : item ∈ Item.ofEntries entries) :
    ∃ t run, Entry.item item.number t ∈ entries ∧ (∀ e ∈ run, e ∈ entries) ∧
      item.paragraphs = itemParagraphs (.text t :: run) := by
  induction entries with
  | nil => cases h
  | cons e entries ih =>
      have hLater : item ∈ Item.ofEntries entries →
          ∃ t run, Entry.item item.number t ∈ e :: entries ∧ (∀ d ∈ run, d ∈ e :: entries) ∧
            item.paragraphs = itemParagraphs (.text t :: run) := by
        intro hItem
        obtain ⟨t, run, hFirst, hRun, hParagraphs⟩ := ih hItem
        exact ⟨t, run, List.mem_cons_of_mem e hFirst, fun d hd =>
          List.mem_cons_of_mem e (hRun d hd), hParagraphs⟩
      cases e with
      | item number t =>
          rw [Item.ofEntries] at h
          cases List.mem_cons.mp h with
          | inl hFirst =>
              subst item
              refine ⟨t, entries.takeWhile (!Entry.isItem ·), List.mem_cons_self, ?_, rfl⟩
              intro d hd
              exact List.mem_cons_of_mem _ ((List.takeWhile_prefix _).subset hd)
          | inr hItem => exact hLater hItem
      | text t => exact hLater h
      | blank => exact hLater h

/-- An item has a paragraph, which starts with the text behind its marker. The text may be blank for
all this lemma says. -/
theorem paragraphs_ne_nil_of_mem_ofEntries {entries : List Entry} {item : Item}
    (h : item ∈ Item.ofEntries entries) : item.paragraphs ≠ [] := by
  obtain ⟨t, run, -, -, hParagraphs⟩ := exists_entries_of_mem_ofEntries h
  rw [hParagraphs]
  exact itemParagraphs_ne_nil t run

/-- The paragraphs of an item are made of texts of the entries, the text behind its marker among
them. -/
theorem exists_texts_of_mem_ofEntries {entries : List Entry} {item : Item}
    (h : item ∈ Item.ofEntries entries) {p : List Inline.Span} (hp : p ∈ item.paragraphs) :
    ∃ texts, texts ≠ [] ∧ Inline.flatten p = Text.unlines texts ∧
      ∀ t ∈ texts, ∃ e ∈ entries, e.text? = some t := by
  obtain ⟨t, run, hFirst, hRun, hParagraphs⟩ := exists_entries_of_mem_ofEntries h
  rw [hParagraphs] at hp
  obtain ⟨texts, hNe, hFlatten, hTexts⟩ := exists_texts_of_mem_itemParagraphs hp
  refine ⟨texts, hNe, hFlatten, ?_⟩
  intro u hu
  obtain ⟨e, he, hText⟩ := hTexts u hu
  cases List.mem_cons.mp he with
  | inl hOwn => exact ⟨_, hFirst, by rw [← hText, hOwn]; rfl⟩
  | inr hMem => exact ⟨e, hRun e hMem, hText⟩

end Reflow.Doc
