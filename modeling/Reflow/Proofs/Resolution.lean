import Mathlib.Data.Char
import Mathlib.Data.List.Lex
import Mathlib.Data.Prod.Lex
import Reflow.Language.Resolve
import Reflow.Proofs.Keys

/-!
The language of an input does not depend on the order in which file extensions are configured, nor
on the case of letters in the extension of its path. Files are known if they have a language, if the
one that is configured for them does not exist, or if they are configured to be plain text.
-/

namespace Reflow

section Case

/-- A capital does not turn into a mark of paths. Slashes and dots come before the capitals, so this
holds of them. -/
theorem toLower_eq_mark_iff {c mark : Char} (hMark : mark.val < 'A'.val) :
    c.toLower = mark ↔ c = mark := by
  delta Char.toLower
  split
  next hCapital =>
    obtain ⟨hA, hZ⟩ := hCapital
    apply iff_of_false
    · rintro rfl
      have hLow : 65 ≤ c.val.toNat := UInt32.le_iff_toNat_le.mp hA
      have hHigh : c.val.toNat ≤ 90 := UInt32.le_iff_toNat_le.mp hZ
      have hCode : (c.val + ('a'.val - 'A'.val)).toNat < 65 := UInt32.lt_iff_toNat_lt.mp hMark
      have hShift : ('a'.val - 'A'.val).toNat = 32 := rfl
      rw [UInt32.toNat_add, hShift] at hCode
      omega
    · rintro rfl
      exact absurd hA (UInt32.not_le.mpr hMark)
  · rfl

/-- To split a text at a mark does not depend on the case of its letters. -/
theorem splitOn_lower {mark : Char} (hMark : mark.val < 'A'.val) (t : Text) :
    (Text.lower t).splitOn mark = (t.splitOn mark).map Text.lower := by
  induction t with
  | nil => rfl
  | cons c t ih =>
      have hHead : (c.toLower == mark) = (c == mark) := by
        rw [Bool.eq_iff_iff, beq_iff_eq, beq_iff_eq, toLower_eq_mark_iff hMark]
      have hLower : Text.lower (c :: t) = c.toLower :: Text.lower t := rfl
      obtain ⟨piece, pieces, hSplit⟩ := List.exists_cons_of_ne_nil (List.splitOn_ne_nil mark t)
      rw [hLower, List.splitOn_cons_eq_if_modifyHead, List.splitOn_cons_eq_if_modifyHead, hHead, ih,
        hSplit]
      cases c == mark with
      | true => rfl
      | false => rfl

end Case

namespace Path

/-- Letters of a component in lower case. Only names have letters. -/
def lowerComponent : Component → Component
  | .name t => .name (Text.lower t)
  | c => c

theorem lower_eq_iff {t marks : Text} (hMarks : ∀ mark ∈ marks, mark.val < 'A'.val) :
    Text.lower t = marks ↔ t = marks := by
  induction t generalizing marks with
  | nil => rfl
  | cons c t ih =>
      cases marks with
      | nil => exact iff_of_false (List.cons_ne_nil _ _) (List.cons_ne_nil _ _)
      | cons mark marks =>
          obtain ⟨hMark, hMarks⟩ := List.forall_mem_cons.mp hMarks
          show c.toLower :: Text.lower t = mark :: marks ↔ c :: t = mark :: marks
          rw [List.cons.injEq, List.cons.injEq, toLower_eq_mark_iff hMark, ih hMarks]

theorem isAbsolute_lower (p : Text) : isAbsolute (Text.lower p) = isAbsolute p := by
  cases p with
  | nil => rfl
  | cons c t =>
      have hSlash : '/' = c.toLower ↔ '/' = c := by
        rw [eq_comm, toLower_eq_mark_iff (by decide), eq_comm]
      show (Text.dropPrefix? ['/'] (c.toLower :: Text.lower t)).isSome =
        (Text.dropPrefix? ['/'] (c :: t)).isSome
      simp only [Text.dropPrefix?, hSlash]
      split
      · rfl
      · rfl

theorem isEmpty_lower (piece : Text) : (Text.lower piece).isEmpty = piece.isEmpty :=
  List.isEmpty_map

theorem beq_dot_lower (piece : Text) : (Text.lower piece == ['.']) = (piece == ['.']) := by
  have hDot : ∀ mark ∈ ['.'], mark.val < 'A'.val := List.forall_mem_singleton.mpr (by decide)
  rw [Bool.eq_iff_iff, beq_iff_eq, beq_iff_eq, lower_eq_iff hDot]

theorem isSilent_lower (piece : Text) : isSilent (Text.lower piece) = isSilent piece := by
  rw [isSilent, isSilent, isEmpty_lower, beq_dot_lower]

theorem ofPiece_lower (piece : Text) :
    ofPiece (Text.lower piece) = lowerComponent (ofPiece piece) := by
  rw [ofPiece, ofPiece]
  by_cases hDots : piece = ['.', '.']
  · rw [hDots]
    rfl
  · have hMarks : ∀ mark ∈ ['.', '.'], mark.val < 'A'.val :=
      List.forall_mem_cons.mpr ⟨by decide, List.forall_mem_singleton.mpr (by decide)⟩
    have hLower : Text.lower piece ≠ ['.', '.'] := mt (lower_eq_iff hMarks).mp hDots
    rw [beq_false_of_ne hDots, beq_false_of_ne hLower]
    rfl

/-- A path in lower case has the same components, in lower case. -/
theorem components_lower (p : Text) :
    components (Text.lower p) = (components p).map lowerComponent := by
  obtain ⟨first, rest, hSplit⟩ := List.exists_cons_of_ne_nil (List.splitOn_ne_nil '/' p)
  have hSilent : (!isSilent ·) ∘ Text.lower = (!isSilent ·) := by
    funext piece
    exact congrArg (!·) (isSilent_lower piece)
  have hPiece : ofPiece ∘ Text.lower = lowerComponent ∘ ofPiece := funext ofPiece_lower
  rw [components, components, splitOn_lower (by decide), hSplit, List.map_cons]
  dsimp only
  rw [isAbsolute_lower, isEmpty_lower, beq_dot_lower, ofPiece_lower, List.map_append,
    List.filter_map, List.map_map, List.map_map, hSilent, hPiece]
  congr 1
  split
  · rfl
  split
  · rfl
  split
  · rfl
  · rfl

/-- A path in lower case has the same extension, in lower case. In particular it has one exactly if
the path has one. -/
theorem extension?_lower (p : Text) :
    extension? (Text.lower p) = (extension? p).map Text.lower := by
  have hFile : fileName? (Text.lower p) = (fileName? p).map Text.lower := by
    rw [fileName?, fileName?, components_lower, List.getLast?_map]
    cases (components p).getLast? with
    | none => rfl
    | some c => cases c <;> rfl
  rw [extension?, extension?, hFile]
  cases fileName? p with
  | none => rfl
  | some name =>
      have hDot : (fun c => c != '.') ∘ Char.toLower = fun c => c != '.' := by
        funext c
        rw [Function.comp_apply, Bool.eq_iff_iff, bne_iff_ne, bne_iff_ne, ne_eq,
          toLower_eq_mark_iff (by decide)]
      dsimp only [Option.map_some]
      rw [Text.lower, ← List.map_reverse, List.dropWhile_map, List.takeWhile_map, hDot]
      cases name.reverse.dropWhile fun c => c != '.' with
      | nil => rfl
      | cons c rest =>
          cases rest with
          | nil => rfl
          | cons d rest => exact congrArg some List.map_reverse.symm

end Path

namespace Language

variable {extensions : List (Text × Text)} {extension : Text}

section Order

/-- Keys in the order in which they are preferred: those without a dot first, and then by their
letters. The case of letters counts here, though not for which extension a key stands. -/
def rank (key : Text) : Bool ×ₗ Text := toLex (Text.startsWith key ['.'], key)

/-- No two keys are preferred alike, so one key is always first. -/
theorem rank_injective : Function.Injective rank := by
  intro a b hRank
  exact congrArg (fun r => (ofLex r).2) hRank

theorem atMost_iff {s t : Text} : Text.atMost s t = true ↔ s ≤ t := by
  induction s generalizing t with
  | nil =>
      apply iff_of_true rfl
      exact not_lt.mp (List.not_lt_nil t)
  | cons a s ih =>
      cases t with
      | nil =>
          apply iff_of_false
          · simp [Text.atMost]
          · exact not_le.mpr (List.nil_lt_cons a s)
      | cons b t =>
          have hLess : a.toNat < b.toNat ↔ a < b := Iff.rfl
          rw [Text.atMost, Bool.or_eq_true, Bool.and_eq_true, decide_eq_true_iff, beq_iff_eq, ih,
            hLess, le_iff_lt_or_eq, le_iff_lt_or_eq, List.cons_lt_cons_iff, List.cons.injEq]
          tauto

/-- To compare two keys by preference is to compare their ranks, so preference is a total order. -/
theorem preferred_iff {a b : Text} : preferred a b = true ↔ rank a ≤ rank b := by
  rw [rank, rank, Prod.Lex.toLex_le_toLex, ← atMost_iff]
  cases hA : Text.startsWith a ['.'] <;> cases hB : Text.startsWith b ['.'] <;>
    simp [preferred, hA, hB]

end Order

section Choice

/-- The entry that counts for an extension: of those whose key stands for it, the one whose key is
preferred to all others. Where in the list it stands does not matter. -/
structure Picks (extensions : List (Text × Text)) (extension : Text) (entry : Text × Text) :
    Prop where
  mem : entry ∈ extensions
  keyMatches : keyMatches extension entry.1 = true
  least : ∀ other ∈ extensions, Language.keyMatches extension other.1 = true →
    rank entry.1 ≤ rank other.1

/-- The entry that is chosen is one of those seen so far, and its key is preferred to theirs. This
is the invariant of the search through the configured entries. -/
theorem exists_foldl_choose (best : Text × Text) (entries : List (Text × Text)) :
    ∃ entry ∈ best :: entries, entries.foldl choose (some best) = some entry ∧
      ∀ other ∈ best :: entries, rank entry.1 ≤ rank other.1 := by
  induction entries generalizing best with
  | nil => exact ⟨best, List.mem_cons_self, rfl, List.forall_mem_singleton.mpr (le_refl _)⟩
  | cons e entries ih =>
      rw [List.foldl_cons, choose]
      split
      next hBest =>
        obtain ⟨entry, hMem, hFold, hLeast⟩ := ih best
        rw [List.forall_mem_cons] at hLeast
        refine ⟨entry, ?_, hFold, ?_⟩
        · rcases List.mem_cons.mp hMem with rfl | hMem
          · exact List.mem_cons_self
          · exact List.mem_cons_of_mem _ (List.mem_cons_of_mem _ hMem)
        · rw [List.forall_mem_cons, List.forall_mem_cons]
          exact ⟨hLeast.1, hLeast.1.trans (preferred_iff.mp hBest), hLeast.2⟩
      next hBest =>
        obtain ⟨entry, hMem, hFold, hLeast⟩ := ih e
        rw [List.forall_mem_cons] at hLeast
        have hBest : rank e.1 ≤ rank best.1 := le_of_not_ge (mt preferred_iff.mpr hBest)
        refine ⟨entry, List.mem_cons_of_mem _ hMem, hFold, ?_⟩
        rw [List.forall_mem_cons, List.forall_mem_cons]
        exact ⟨hLeast.1.trans hBest, hLeast⟩

/-- Nothing is configured for an extension if no key stands for it. -/
theorem configured?_eq_none_iff :
    configured? extensions extension = none ↔
      ∀ entry ∈ extensions, keyMatches extension entry.1 = false := by
  have hFilter : extensions.filter (fun entry => keyMatches extension entry.1) = [] ↔
      ∀ entry ∈ extensions, keyMatches extension entry.1 = false := by
    simp [List.filter_eq_nil_iff]
  rw [configured?, Option.map_eq_none_iff, ← hFilter]
  cases extensions.filter fun entry => keyMatches extension entry.1 with
  | nil => exact iff_of_true rfl rfl
  | cons best entries =>
      apply iff_of_false _ (List.cons_ne_nil _ _)
      obtain ⟨entry, -, hFold, -⟩ := exists_foldl_choose best entries
      show entries.foldl choose (some best) ≠ none
      rw [hFold]
      exact Option.some_ne_none entry

/-- What is configured for an extension comes from an entry that counts. -/
theorem exists_picks {name : Text} (h : configured? extensions extension = some name) :
    ∃ key, Picks extensions extension (key, name) := by
  rw [configured?] at h
  obtain ⟨⟨key, value⟩, hChoice, rfl⟩ := Option.map_eq_some_iff.mp h
  cases hFilter : extensions.filter fun entry => keyMatches extension entry.1 with
  | nil =>
      rw [hFilter] at hChoice
      cases hChoice
  | cons best entries =>
      obtain ⟨entry, hMem, hFold, hLeast⟩ := exists_foldl_choose best entries
      rw [hFilter] at hChoice
      obtain rfl := Option.some.inj (hFold.symm.trans hChoice)
      rw [← hFilter, List.mem_filter] at hMem
      refine ⟨key, hMem.1, hMem.2, fun other hOther hMatch => hLeast other ?_⟩
      rw [← hFilter]
      exact List.mem_filter.mpr ⟨hOther, hMatch⟩

theorem Picks.configured?_ne_none {entry : Text × Text} (h : Picks extensions extension entry) :
    configured? extensions extension ≠ none := by
  intro hNone
  have hMatch := configured?_eq_none_iff.mp hNone entry h.mem
  rw [h.keyMatches] at hMatch
  cases hMatch

/-- Only one entry counts. Were a key there twice, either of its entries could. -/
theorem Picks.eq (hKeys : UniqueKeys extensions) {a b : Text × Text}
    (ha : Picks extensions extension a) (hb : Picks extensions extension b) : a = b := by
  have hKey : a.1 = b.1 :=
    rank_injective (le_antisymm (ha.least b hb.mem hb.keyMatches) (hb.least a ha.mem ha.keyMatches))
  have hValue : some a.2 = some b.2 := by
    rw [← (lookup_eq_some_iff_mem hKeys).mpr ha.mem, ← (lookup_eq_some_iff_mem hKeys).mpr hb.mem,
      hKey]
  exact Prod.ext hKey (Option.some.inj hValue)

/-- A name is configured for an extension if the entry that counts gives it. -/
theorem configured?_eq_some_iff (hKeys : UniqueKeys extensions) {name : Text} :
    configured? extensions extension = some name ↔
      ∃ key, Picks extensions extension (key, name) := by
  constructor
  · exact exists_picks
  · rintro ⟨key, hPicks⟩
    cases hName : configured? extensions extension with
    | none => exact absurd hName hPicks.configured?_ne_none
    | some other =>
        obtain ⟨key', hOther⟩ := exists_picks hName
        obtain ⟨-, rfl⟩ := Prod.mk.inj (hOther.eq hKeys hPicks)
        rfl

/-- Which entry counts does not depend on the order of the entries. -/
theorem Picks.perm {others : List (Text × Text)} (hPerm : extensions.Perm others)
    {entry : Text × Text} (h : Picks extensions extension entry) : Picks others extension entry :=
  ⟨hPerm.mem_iff.mp h.mem, h.keyMatches, fun other hOther =>
    h.least other (hPerm.mem_iff.mpr hOther)⟩

/-- What is configured for an extension does not depend on the order of the entries. -/
theorem configured?_perm (hKeys : UniqueKeys extensions) {others : List (Text × Text)}
    (hPerm : extensions.Perm others) (extension : Text) :
    configured? others extension = configured? extensions extension := by
  apply Option.ext
  intro name
  rw [configured?_eq_some_iff hKeys, configured?_eq_some_iff (hKeys.perm hPerm)]
  exact exists_congr fun key => ⟨.perm hPerm.symm, .perm hPerm⟩

/-- What is configured for an extension does not depend on the case of its letters. -/
theorem configured?_of_lower {other : Text} (hCase : Text.lower other = Text.lower extension) :
    configured? extensions other = configured? extensions extension := by
  have hMatches : keyMatches other = keyMatches extension := by
    funext key
    rw [keyMatches, keyMatches, Text.sameIgnoringCase, Text.sameIgnoringCase, hCase]
  rw [configured?, configured?, hMatches]

end Choice

section Resolve

/-- The error to report has no effect on the language that a name stands for. -/
theorem toOption_ofRequest (name : Text) (error other : ResolveError) :
    (ofRequest name error).toOption = (ofRequest name other).toOption := by
  rw [ofRequest, ofRequest]
  split
  · rfl
  · cases ofName? name with
    | none => rfl
    | some lang => rfl

theorem ofExtension?_of_lower {other : Text} (hCase : Text.lower other = Text.lower extension) :
    ofExtension? other = ofExtension? extension := by
  rw [ofExtension?, ofExtension?, hCase]

/-- Two paths whose extensions differ in the case of letters have the same language, or neither has
one. The error that is reported may differ, because it names the extension as it is spelled. -/
theorem toOption_resolve_of_lower {p q : Text}
    (hCase : (Path.extension? q).map Text.lower = (Path.extension? p).map Text.lower)
    (explicit : Option Text) :
    (resolve (some q) explicit extensions).toOption =
      (resolve (some p) explicit extensions).toOption := by
  rw [resolve, resolve]
  split
  · rfl
  · rw [Option.bind_some, Option.bind_some]
    cases hp : Path.extension? p with
    | none =>
        rw [hp] at hCase
        rw [Option.map_eq_none_iff.mp hCase]
    | some extension =>
        rw [hp] at hCase
        obtain ⟨other, hq, hLower⟩ := Option.map_eq_some_iff.mp hCase
        rw [hq]
        dsimp only
        rw [configured?_of_lower hLower, ofExtension?_of_lower hLower]
        cases configured? extensions extension with
        | none => rfl
        | some name => exact toOption_ofRequest name _ _

/-- Without an explicit name, the extension of a path decides. What is configured for it comes
before what is known of it, also where it asks for plain text or is no language. -/
theorem resolve_of_extension? {p : Text} (hp : Path.extension? p = some extension) :
    resolve (some p) none extensions =
      (configured? extensions extension).elim (.ok (ofExtension? extension)) fun name =>
        ofRequest name (.unknownFor extension name) := by
  simp only [resolve, Option.filter_none, Option.bind_some, hp]
  cases configured? extensions extension with
  | none => rfl
  | some name => rfl

/-- The entry that counts gives the name of the language. If this is no language, it is an error,
and the known languages are not asked. -/
theorem resolve_of_picks (hKeys : UniqueKeys extensions) {p : Text} {entry : Text × Text}
    (hp : Path.extension? p = some extension) (hPicks : Picks extensions extension entry) :
    resolve (some p) none extensions = ofRequest entry.2 (.unknownFor extension entry.2) := by
  have hName := (configured?_eq_some_iff hKeys).mpr ⟨entry.1, hPicks⟩
  rw [resolve_of_extension? hp, hName, Option.elim_some]

/-- A name is that of a language, or it is an error, or it asks for plain text. -/
theorem ofRequest_cases (name : Text) (error : ResolveError) :
    (∃ lang, ofRequest name error = .ok (some lang)) ∨ ofRequest name error = .error error ∨
      Text.sameIgnoringCase name plainText = true := by
  rw [ofRequest]
  split
  next hText => exact Or.inr (Or.inr hText)
  · cases ofName? name with
    | none => exact Or.inr (Or.inl rfl)
    | some lang => exact Or.inl ⟨lang, rfl⟩

/-- Discovery of files looks for the same entries as resolution. It does not look at what they
give. -/
theorem isKnownFile_of_extension? {p : Text} (hp : Path.extension? p = some extension) :
    isKnownFile extensions p =
      ((ofExtension? extension).isSome || (configured? extensions extension).isSome) := by
  have hAny : (extensions.any fun entry => keyMatches extension entry.1) =
      (configured? extensions extension).isSome := by
    rw [Bool.eq_iff_iff, ← not_iff_not, Bool.not_eq_true, Bool.not_eq_true, List.any_eq_false,
      Option.isSome_eq_false_iff, Option.isNone_iff_eq_none, configured?_eq_none_iff]
    simp only [Bool.not_eq_true]
  rw [isKnownFile, ofPath?, hp, Option.bind_some, Option.any_some, hAny]

/-- A file is known if resolution gives a language, if it gives an error, or if the entry that
counts asks for plain text. A file without an extension is plain text too, but not known. -/
theorem isKnownFile_iff (p : Text) :
    isKnownFile extensions p = true ↔
      (∃ lang, resolve (some p) none extensions = .ok (some lang)) ∨
        (∃ error, resolve (some p) none extensions = .error error) ∨
        ∃ extension entry, Path.extension? p = some extension ∧ Picks extensions extension entry ∧
          Text.sameIgnoringCase entry.2 plainText = true := by
  cases hp : Path.extension? p with
  | none =>
      rw [isKnownFile, ofPath?, resolve, Option.filter_none, Option.bind_some, hp]
      simp
  | some extension =>
      rw [isKnownFile_of_extension? hp, resolve_of_extension? hp]
      cases hName : configured? extensions extension with
      | none =>
          rw [Option.isSome_none, Bool.or_false, Option.isSome_iff_exists]
          constructor
          · rintro ⟨lang, hLang⟩
            exact Or.inl ⟨lang, congrArg Except.ok hLang⟩
          · rintro (⟨lang, hLang⟩ | ⟨error, hError⟩ | ⟨_, entry, hSome, hPicks, -⟩)
            · exact ⟨lang, Except.ok.inj hLang⟩
            · cases hError
            · obtain rfl := Option.some.inj hSome
              exact absurd hName hPicks.configured?_ne_none
      | some name =>
          apply iff_of_true (by rw [Option.isSome_some, Bool.or_true])
          obtain ⟨key, hPicks⟩ := exists_picks hName
          rcases ofRequest_cases name (.unknownFor extension name) with hLang | hError | hText
          · exact Or.inl hLang
          · exact Or.inr (Or.inl ⟨_, hError⟩)
          · exact Or.inr (Or.inr ⟨extension, (key, name), rfl, hPicks, hText⟩)

end Resolve

/-- The language of an input is the same in whatever order extensions are configured, and an
extension that differs in the case of letters leads to the same language or to an error like before.
A file is known if there is a language for it, if the one that is configured does not exist, or if
the entry that counts for its extension, and gives the name of its language, asks for plain text. -/
theorem resolve_independent (hKeys : UniqueKeys extensions) :
    (∀ path explicit others, extensions.Perm others →
        resolve path explicit others = resolve path explicit extensions) ∧
      (∀ p q explicit, (Path.extension? q).map Text.lower = (Path.extension? p).map Text.lower →
        (resolve (some q) explicit extensions).toOption =
          (resolve (some p) explicit extensions).toOption) ∧
      (∀ p q, Text.lower q = Text.lower p →
        (Path.extension? q).map Text.lower = (Path.extension? p).map Text.lower) ∧
      (∀ p extension entry, Path.extension? p = some extension → Picks extensions extension entry →
        resolve (some p) none extensions = ofRequest entry.2 (.unknownFor extension entry.2)) ∧
      ∀ p, isKnownFile extensions p = true ↔
        (∃ lang, resolve (some p) none extensions = .ok (some lang)) ∨
          (∃ error, resolve (some p) none extensions = .error error) ∨
          ∃ extension entry, Path.extension? p = some extension ∧ Picks extensions extension entry ∧
            Text.sameIgnoringCase entry.2 plainText = true := by
  refine ⟨?_, fun p q explicit hCase => toOption_resolve_of_lower hCase explicit, ?_,
    fun p extension entry => resolve_of_picks hKeys, isKnownFile_iff⟩
  · intro path explicit others hPerm
    have hConfigured : configured? others = configured? extensions :=
      funext (configured?_perm hKeys hPerm)
    rw [resolve, resolve, hConfigured]
  · intro p q hCase
    rw [← Path.extension?_lower, ← Path.extension?_lower, hCase]

/-- Three keys stand for one extension. -/
def templates : List (Text × Text) :=
  [("tpl".toList, "go".toList), (".tpl".toList, "text".toList), ("TPL".toList, "python".toList)]

theorem resolve_independent_templates :
    UniqueKeys templates ∧
      resolve (some "a.tpl".toList) none templates.reverse =
        resolve (some "a.tpl".toList) none templates ∧
      (resolve (some "a.Tpl".toList) none templates).toOption =
        (resolve (some "a.tpl".toList) none templates).toOption ∧
      isKnownFile templates "a.tpl".toList = true := by
  have hKeys : UniqueKeys templates := by decide
  obtain ⟨hOrder, hCase, -, -, hKnown⟩ := resolve_independent hKeys
  refine ⟨hKeys, hOrder _ _ _ templates.reverse_perm.symm, hCase _ _ _ (by decide), ?_⟩
  exact (hKnown _).mpr (Or.inl ⟨_, by rfl⟩)

end Language

end Reflow
