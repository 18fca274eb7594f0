import Lbsync.GoString
import Lbsync.Lib.Trim

/-!
# The blob resources of a configuration

`BLOB_RESOURCES` lists resources as `name=src:dest[:strategy]`, separated by commas. An
item needs a `=` and, after the first one, a `:`; everything else is taken as it comes.
The first item that lacks one of them makes the whole list an error.
-/

namespace Lbsync.Config

/-- The UTF-8 encodings of the white space characters of Unicode. -/
def whiteSpace : List GoString :=
  [[0x09], [0x0a], [0x0b], [0x0c], [0x0d], [0x20], [0xc2, 0x85], [0xc2, 0xa0],
    [0xe1, 0x9a, 0x80], [0xe2, 0x80, 0x80], [0xe2, 0x80, 0x81], [0xe2, 0x80, 0x82],
    [0xe2, 0x80, 0x83], [0xe2, 0x80, 0x84], [0xe2, 0x80, 0x85], [0xe2, 0x80, 0x86],
    [0xe2, 0x80, 0x87], [0xe2, 0x80, 0x88], [0xe2, 0x80, 0x89], [0xe2, 0x80, 0x8a],
    [0xe2, 0x80, 0xa8], [0xe2, 0x80, 0xa9], [0xe2, 0x80, 0xaf], [0xe2, 0x81, 0x9f],
    [0xe3, 0x80, 0x80]]

/-- `strings.TrimSpace`. Bytes that are no valid UTF-8 are not white space. -/
def trimSpace (s : GoString) : GoString := Trim.trim whiteSpace s

/-- The separator of the items. -/
def comma : UInt8 := 44

/-- The separator of a resource's name. -/
def equals : UInt8 := 61

/-- The separator of a resource's fields. -/
def colon : UInt8 := 58

/-- `strings.Cut`: what stands before and after the first separator. -/
def cut (sep : UInt8) : GoString → Option (GoString × GoString)
  | [] => none
  | b :: s => if b = sep then some ([], s) else (cut sep s).map fun parts => (b :: parts.1, parts.2)

/-- The loop of `parseList`. -/
def appendItem (out : List GoString) (p : GoString) : List GoString :=
  if trimSpace p = [] then out else out ++ [trimSpace p]

/-- The trimmed items of a comma-separated list that are not blank. -/
def parseList (s : GoString) : List GoString :=
  if trimSpace s = [] then [] else (s.splitOn comma).foldl appendItem []

/-- One generic file managed by the blob module. -/
structure BlobResource where
  name : GoString
  source : GoString
  dest : GoString
  strategy : GoString
  verify : List GoString
  reload : List GoString
  deriving DecidableEq

/-- An item that is not a resource, and what was expected. -/
structure ItemError where
  item : GoString
  expected : GoString
  deriving DecidableEq

/-- The strategy, from the fields after the destination. -/
def strategyOf : List GoString → GoString
  | [] => ascii "mtime"
  | field :: _ => if field = [] then ascii "mtime" else field

/-- One iteration of `parseBlobResources`. -/
def parseItem (item : GoString) : Except ItemError BlobResource :=
  match cut equals item with
  | none => .error ⟨item, ascii "name=src:dest[:strategy]"⟩
  | some (name, spec) =>
      match spec.splitOn colon with
      | source :: dest :: fields =>
          .ok ⟨trimSpace name, source, dest, strategyOf fields, [], []⟩
      | _ => .error ⟨item, ascii "src:dest[:strategy]"⟩

/-- The loop of `parseBlobResources`. -/
def parseItems (out : List BlobResource) : List GoString → Except ItemError (List BlobResource)
  | [] => .ok out
  | item :: items =>
      match parseItem item with
      | .error e => .error e
      | .ok r => parseItems (out ++ [r]) items

/-- The resources of a configuration string. -/
def parseBlobResources (s : GoString) : Except ItemError (List BlobResource) :=
  parseItems [] (parseList s)

section Lists

theorem appendItem_foldl (parts out : List GoString) :
    parts.foldl appendItem out = out ++ (parts.map trimSpace).filter (· ≠ []) := by
  induction parts generalizing out with
  | nil => simp
  | cons p parts ih =>
      rw [List.foldl_cons, ih, appendItem]
      by_cases hblank : trimSpace p = []
      · simp [hblank]
      · simp [hblank]

theorem comma_notMem_whiteSpace : ∀ b ∈ whiteSpace, comma ∉ b := by decide

/-- A list is its non-blank items, trimmed, also when the whole of it is blank. -/
theorem parseList_eq (s : GoString) :
    parseList s = ((s.splitOn comma).map trimSpace).filter (· ≠ []) := by
  unfold parseList
  split_ifs with hblank
  · have hcomma : comma ∉ s := by
      intro hmem
      have hkept : comma ∈ trimSpace s := Trim.mem_trim comma_notMem_whiteSpace hmem
      rw [hblank] at hkept
      exact List.not_mem_nil hkept
    rw [List.splitOn_eq_singleton hcomma]
    simp [hblank]
  · rw [appendItem_foldl, List.nil_append]

end Lists

section Items

variable {sep : UInt8} {s name spec item : GoString}

theorem cut_eq_some_iff : cut sep s = some (name, spec) ↔ s = name ++ sep :: spec ∧ sep ∉ name := by
  induction s generalizing name with
  | nil => simp [cut]
  | cons b s ih =>
      rw [cut]
      by_cases hb : b = sep
      · subst hb
        cases name with
        | nil => simp
        | cons c name =>
            simp only [if_true, Option.some.injEq, Prod.mk.injEq, List.cons_append, List.cons.injEq,
              List.mem_cons, not_or]
            constructor
            · rintro ⟨⟨⟩, -⟩
            · rintro ⟨⟨rfl, -⟩, hne, -⟩
              exact absurd rfl hne
      · rw [if_neg hb, Option.map_eq_some_iff]
        constructor
        · rintro ⟨⟨l, r⟩, hcut, hparts⟩
          obtain ⟨rfl, rfl⟩ := Prod.mk.inj hparts
          obtain ⟨rfl, hl⟩ := ih.mp hcut
          exact ⟨rfl, by simp [hl, Ne.symm hb]⟩
        · rintro ⟨heq, hname⟩
          cases name with
          | nil => exact absurd (List.cons.inj heq).1 hb
          | cons c name =>
              obtain ⟨rfl, rfl⟩ := List.cons.inj heq
              exact ⟨(name, spec), ih.mpr ⟨rfl, fun h => hname (List.mem_cons_of_mem _ h)⟩, rfl⟩

theorem cut_eq_none_iff : cut sep s = none ↔ sep ∉ s := by
  induction s with
  | nil => simp [cut]
  | cons b s ih =>
      rw [cut]
      by_cases hb : b = sep
      · simp [hb]
      · simp [hb, ih, Ne.symm hb]

/-- The fields are at least two when there is a separator, and the first ends at it. -/
theorem splitOn_eq_cons_cons_iff {source dest : GoString} {fields : List GoString} :
    s.splitOn sep = source :: dest :: fields ↔
      ∃ rest, s = source ++ sep :: rest ∧ sep ∉ source ∧ rest.splitOn sep = dest :: fields := by
  constructor
  · intro h
    rcases hcut : cut sep s with _ | ⟨front, rest⟩
    · rw [List.splitOn_eq_singleton (cut_eq_none_iff.mp hcut)] at h
      cases h
    · obtain ⟨rfl, hfront⟩ := cut_eq_some_iff.mp hcut
      rw [List.splitOn_append_cons_self_of_not_mem hfront] at h
      obtain ⟨rfl, hrest⟩ := List.cons.inj h
      exact ⟨rest, rfl, hfront, hrest⟩
  · rintro ⟨rest, rfl, hsource, hrest⟩
    rw [List.splitOn_append_cons_self_of_not_mem hsource, hrest]

end Items

section Acceptance

/-- The item reads `name=src:dest`, possibly followed by further fields. Any of the parts may
be empty. -/
def ReadsResource (item : GoString) : Prop :=
  ∃ name source dest, equals ∉ name ∧ colon ∉ source ∧ colon ∉ dest ∧
    (item = name ++ equals :: (source ++ colon :: dest) ∨
      ∃ rest, item = name ++ equals :: (source ++ colon :: (dest ++ colon :: rest)))

/-- What an accepted item reads decides the resource. -/
theorem parseItem_eq_ok_iff {item : GoString} {r : BlobResource} :
    parseItem item = .ok r ↔
      ∃ name source rest dest fields, cut equals item = some (name, source ++ colon :: rest) ∧
        colon ∉ source ∧ rest.splitOn colon = dest :: fields ∧
        r = ⟨trimSpace name, source, dest, strategyOf fields, [], []⟩ := by
  constructor
  · intro h
    unfold parseItem at h
    split at h
    · cases h
    · rename_i name spec hcut
      split at h
      · rename_i source dest fields hfields
        obtain ⟨rest, rfl, hsource, hrest⟩ := splitOn_eq_cons_cons_iff.mp hfields
        exact ⟨name, source, rest, dest, fields, hcut, hsource, hrest, (Except.ok.inj h).symm⟩
      · cases h
  · rintro ⟨name, source, rest, dest, fields, hcut, hsource, hrest, rfl⟩
    have hfields := splitOn_eq_cons_cons_iff.mpr ⟨rest, rfl, hsource, hrest⟩
    simp only [parseItem, hcut, hfields]

/-- An item is accepted when it reads as a resource. -/
theorem parseItem_ok_iff {item : GoString} :
    (∃ r, parseItem item = .ok r) ↔ ReadsResource item := by
  constructor
  · rintro ⟨r, h⟩
    obtain ⟨name, source, rest, dest, fields, hcut, hsource, hrest, -⟩ := parseItem_eq_ok_iff.mp h
    obtain ⟨rfl, hname⟩ := cut_eq_some_iff.mp hcut
    refine ⟨name, source, dest, hname, hsource, ?_⟩
    rcases hcolon : cut colon rest with _ | ⟨front, back⟩
    · have hfree : colon ∉ rest := cut_eq_none_iff.mp hcolon
      rw [List.splitOn_eq_singleton hfree] at hrest
      obtain ⟨rfl, -⟩ := List.cons.inj hrest
      exact ⟨hfree, Or.inl rfl⟩
    · obtain ⟨rfl, hfree⟩ := cut_eq_some_iff.mp hcolon
      rw [List.splitOn_append_cons_self_of_not_mem hfree] at hrest
      obtain ⟨rfl, -⟩ := List.cons.inj hrest
      exact ⟨hfree, Or.inr ⟨back, rfl⟩⟩
  · rintro ⟨name, source, dest, hname, hsource, hdest, rfl | ⟨rest, rfl⟩⟩
    · exact ⟨_, parseItem_eq_ok_iff.mpr ⟨name, source, dest, dest, [],
        cut_eq_some_iff.mpr ⟨rfl, hname⟩, hsource, List.splitOn_eq_singleton hdest, rfl⟩⟩
    · exact ⟨_, parseItem_eq_ok_iff.mpr ⟨name, source, dest ++ colon :: rest, dest,
        rest.splitOn colon, cut_eq_some_iff.mpr ⟨rfl, hname⟩, hsource,
        List.splitOn_append_cons_self_of_not_mem hdest rest, rfl⟩⟩

/-- An error is about the item it names. -/
theorem parseItem_error {item : GoString} {e : ItemError} (h : parseItem item = .error e) :
    e.item = item := by
  unfold parseItem at h
  split at h
  · rw [← Except.error.inj h]
  · split at h
    · cases h
    · rw [← Except.error.inj h]

/-- The loop ends with a resource for every item, in order, or with an error for one of them. -/
theorem parseItems_spec (items : List GoString) (out : List BlobResource) :
    (∃ rs, parseItems out items = .ok (out ++ rs) ∧ items.map parseItem = rs.map .ok) ∨
    ∃ e, parseItems out items = .error e ∧ e.item ∈ items ∧ parseItem e.item = .error e := by
  induction items generalizing out with
  | nil => exact Or.inl ⟨[], by simp [parseItems]⟩
  | cons item items ih =>
      rw [parseItems]
      cases hitem : parseItem item with
      | error e =>
          obtain rfl := parseItem_error hitem
          exact Or.inr ⟨e, rfl, List.mem_cons_self, hitem⟩
      | ok r =>
          rcases ih (out ++ [r]) with ⟨rs, hrs, hall⟩ | ⟨e, he, hmem, herror⟩
          · exact Or.inl ⟨r :: rs, by simp [hrs], by simp [hitem, hall]⟩
          · exact Or.inr ⟨e, he, List.mem_cons_of_mem item hmem, herror⟩

/-- A configuration string is accepted exactly when each of its non-blank items reads as a
resource. Otherwise there is an error, about an item that does not, and no resource. -/
theorem parseBlobResources_accepts (s : GoString) :
    ((∃ rs, parseBlobResources s = .ok rs) ↔
      ∀ item ∈ ((s.splitOn comma).map trimSpace).filter (· ≠ []), ReadsResource item) ∧
    ((∀ rs, parseBlobResources s ≠ .ok rs) →
      ∃ e, parseBlobResources s = .error e ∧
        e.item ∈ ((s.splitOn comma).map trimSpace).filter (· ≠ []) ∧ ¬ ReadsResource e.item) := by
  rw [← parseList_eq]
  rcases parseItems_spec (parseList s) [] with ⟨rs, hrs, hall⟩ | ⟨e, he, hmem, herror⟩
  · have hok : parseBlobResources s = .ok rs := hrs
    refine ⟨⟨fun _ item hitem => ?_, fun _ => ⟨rs, hok⟩⟩, fun hnone => absurd hok (hnone rs)⟩
    have hresult : parseItem item ∈ rs.map .ok := hall ▸ List.mem_map_of_mem hitem
    obtain ⟨r, -, hr⟩ := List.mem_map.mp hresult
    exact parseItem_ok_iff.mp ⟨r, hr.symm⟩
  · have herr : parseBlobResources s = .error e := he
    have hbad : ¬ ReadsResource e.item := by
      rw [← parseItem_ok_iff]
      rintro ⟨r, hr⟩
      rw [herror] at hr
      cases hr
    refine ⟨⟨?_, fun hall => absurd (hall e.item hmem) hbad⟩, fun _ => ⟨e, herr, hmem, hbad⟩⟩
    rintro ⟨rs, hrs⟩
    rw [herr] at hrs
    cases hrs

end Acceptance

section Grammar

/-- The parts of an item: name, source, destination, and what follows a second colon. -/
structure Parts where
  name : GoString
  source : GoString
  dest : GoString
  rest : Option GoString
  deriving DecidableEq

namespace Parts

/-- The item with these parts. -/
def text (p : Parts) : GoString :=
  p.name ++ equals :: (p.source ++ colon :: (p.dest ++ p.rest.elim [] (colon :: ·)))

/-- Each part ends at the first separator after it. -/
def Separated (p : Parts) : Prop := equals ∉ p.name ∧ colon ∉ p.source ∧ colon ∉ p.dest

/-- No part is blank. -/
def Filled (p : Parts) : Prop :=
  trimSpace p.name ≠ [] ∧ trimSpace p.source ≠ [] ∧ trimSpace p.dest ≠ []

/-- There is no strategy, or one of the two known ones and no further field. -/
def Known (p : Parts) : Prop := p.rest ∈ [none, some (ascii "mtime"), some (ascii "sha")]

instance (p : Parts) : Decidable p.Filled := inferInstanceAs (Decidable (_ ∧ _ ∧ _))

instance (p : Parts) : Decidable p.Known := inferInstanceAs (Decidable (_ ∈ _))

end Parts

/-- The parts of an item that has a name and two fields. -/
def partsOf (item : GoString) : Option Parts :=
  (cut equals item).bind fun (name, spec) => (cut colon spec).map fun (source, rest) =>
    match cut colon rest with
    | none => ⟨name, source, rest, none⟩
    | some (dest, rest) => ⟨name, source, dest, some rest⟩

theorem partsOf_eq_some_iff {item : GoString} {p : Parts} :
    partsOf item = some p ↔ p.Separated ∧ item = p.text := by
  constructor
  · intro h
    obtain ⟨⟨name, spec⟩, hname, hspec⟩ := Option.bind_eq_some_iff.mp h
    obtain ⟨⟨source, rest⟩, hsource, hrest⟩ := Option.map_eq_some_iff.mp hspec
    obtain ⟨rfl, hequals⟩ := cut_eq_some_iff.mp hname
    obtain ⟨rfl, hcolon⟩ := cut_eq_some_iff.mp hsource
    simp only at hrest
    rcases hdest : cut colon rest with _ | ⟨dest, further⟩
    · rw [hdest] at hrest
      obtain rfl := hrest
      exact ⟨⟨hequals, hcolon, cut_eq_none_iff.mp hdest⟩, by simp [Parts.text]⟩
    · rw [hdest] at hrest
      obtain rfl := hrest
      obtain ⟨rfl, hfree⟩ := cut_eq_some_iff.mp hdest
      exact ⟨⟨hequals, hcolon, hfree⟩, rfl⟩
  · rintro ⟨⟨hequals, hcolon, hfree⟩, rfl⟩
    obtain ⟨name, source, dest, rest⟩ := p
    have hname (spec : GoString) : cut equals (name ++ equals :: spec) = some (name, spec) :=
      cut_eq_some_iff.mpr ⟨rfl, hequals⟩
    have hsource (spec : GoString) : cut colon (source ++ colon :: spec) = some (source, spec) :=
      cut_eq_some_iff.mpr ⟨rfl, hcolon⟩
    cases rest with
    | none =>
        have hdest : cut colon dest = none := cut_eq_none_iff.mpr hfree
        simp [partsOf, Parts.text, hname, hsource, hdest]
    | some rest =>
        have hdest : cut colon (dest ++ colon :: rest) = some (dest, rest) :=
          cut_eq_some_iff.mpr ⟨rfl, hfree⟩
        simp [partsOf, Parts.text, hname, hsource, hdest]

/-- An item reads as a resource when it has parts. -/
theorem readsResource_iff {item : GoString} :
    ReadsResource item ↔ ∃ p, partsOf item = some p := by
  constructor
  · rintro ⟨name, source, dest, hname, hsource, hdest, rfl | ⟨rest, rfl⟩⟩
    · exact ⟨⟨name, source, dest, none⟩,
        partsOf_eq_some_iff.mpr ⟨⟨hname, hsource, hdest⟩, by simp [Parts.text]⟩⟩
    · exact ⟨⟨name, source, dest, some rest⟩,
        partsOf_eq_some_iff.mpr ⟨⟨hname, hsource, hdest⟩, rfl⟩⟩
  · rintro ⟨⟨name, source, dest, rest⟩, hparts⟩
    obtain ⟨⟨hname, hsource, hdest⟩, rfl⟩ := partsOf_eq_some_iff.mp hparts
    refine ⟨name, source, dest, hname, hsource, hdest, ?_⟩
    cases rest with
    | none => exact Or.inl (by simp [Parts.text])
    | some rest => exact Or.inr ⟨rest, rfl⟩

/-- The item reads `name=src:dest` or `name=src:dest:strategy`, no part is blank and the strategy
is `mtime` or `sha`. -/
def Documented (item : GoString) : Prop :=
  ∃ p : Parts, p.Separated ∧ item = p.text ∧ p.Filled ∧ p.Known

theorem documented_iff {item : GoString} :
    Documented item ↔ ∃ p ∈ partsOf item, p.Filled ∧ p.Known := by
  simp only [Documented, Option.mem_def, partsOf_eq_some_iff, and_assoc]

instance : DecidablePred Documented := fun _ => decidable_of_iff _ documented_iff.symm

/-- The name of an item. -/
def nameOf (item : GoString) : GoString := (partsOf item).elim [] fun p => trimSpace p.name

/-- The documented grammar: every non-blank item has the documented form, and no name is used
twice. -/
def InGrammar (s : GoString) : Prop :=
  (∀ item ∈ ((s.splitOn comma).map trimSpace).filter (· ≠ []), Documented item) ∧
    ((((s.splitOn comma).map trimSpace).filter (· ≠ [])).map nameOf).Nodup

instance : DecidablePred InGrammar := fun _ => inferInstanceAs (Decidable (_ ∧ _))

/-- The parser keeps to the grammar of a string: it accepts a string of the grammar, and for any
other it returns an error. -/
def KeepsGrammar (s : GoString) : Prop :=
  ((∃ rs, parseBlobResources s = .ok rs) ↔ InGrammar s) ∧
    (¬ InGrammar s → ∃ e, parseBlobResources s = .error e)

/-- What the parser overlooks in an item that reads as a resource: a blank name, source or
destination, a strategy that is not known (also an empty one), or a further field. -/
def Overlooked (item : GoString) : Prop :=
  ∃ p : Parts, p.Separated ∧ item = p.text ∧
    (trimSpace p.name = [] ∨ trimSpace p.source = [] ∨ trimSpace p.dest = [] ∨
      ∃ rest, p.rest = some rest ∧ (colon ∈ rest ∨ rest ≠ ascii "mtime" ∧ rest ≠ ascii "sha"))

/-- An item with parts has the documented form exactly when nothing in it is overlooked. -/
theorem documented_iff_not_overlooked {item : GoString} (h : ReadsResource item) :
    Documented item ↔ ¬ Overlooked item := by
  obtain ⟨p, hp⟩ := readsResource_iff.mp h
  obtain ⟨hseparated, htext⟩ := partsOf_eq_some_iff.mp hp
  have hunique {q : Parts} (hq : q.Separated) (hitem : item = q.text) : q = p :=
    Option.some.inj ((partsOf_eq_some_iff.mpr ⟨hq, hitem⟩).symm.trans hp)
  constructor
  · rintro ⟨q, hq, hitem, ⟨hname, hsource, hdest⟩, hknown⟩ ⟨q', hq', hitem', hbad⟩
    obtain rfl : q' = q := (hunique hq' hitem').trans (hunique hq hitem).symm
    rcases hbad with hblank | hblank | hblank | ⟨rest, hrest, hbad⟩
    · exact hname hblank
    · exact hsource hblank
    · exact hdest hblank
    · rw [Parts.Known, hrest] at hknown
      rcases hbad with hcolon | ⟨hmtime, hsha⟩
      · have hfree : ∀ strategy ∈ [ascii "mtime", ascii "sha"], colon ∉ strategy := by decide
        exact hfree rest (by simpa using hknown) hcolon
      · simp [hmtime, hsha] at hknown
  · intro hnone
    refine ⟨p, hseparated, htext, ⟨?_, ?_, ?_⟩, ?_⟩
    · exact fun hblank => hnone ⟨p, hseparated, htext, Or.inl hblank⟩
    · exact fun hblank => hnone ⟨p, hseparated, htext, Or.inr (Or.inl hblank)⟩
    · exact fun hblank => hnone ⟨p, hseparated, htext, Or.inr (Or.inr (Or.inl hblank))⟩
    · by_contra hunknown
      obtain ⟨rest, hrest⟩ : ∃ rest, p.rest = some rest := by
        refine Option.ne_none_iff_exists'.mp fun hrest => hunknown ?_
        simp [Parts.Known, hrest]
      refine hnone ⟨p, hseparated, htext, Or.inr (Or.inr (Or.inr ⟨rest, hrest, Or.inr ?_⟩))⟩
      simpa [Parts.Known, hrest] using hunknown

theorem readsResource_of_documented {item : GoString} (h : Documented item) :
    ReadsResource item := by
  obtain ⟨p, hp, -⟩ := documented_iff.mp h
  exact readsResource_iff.mpr ⟨p, hp⟩

/-- The parser keeps to the grammar exactly of the strings with an item that does not read as a
resource, and of those in which nothing is overlooked and no name is used twice. -/
theorem keepsGrammar_iff (s : GoString) :
    KeepsGrammar s ↔
      (∃ item ∈ ((s.splitOn comma).map trimSpace).filter (· ≠ []), ¬ ReadsResource item) ∨
      (∀ item ∈ ((s.splitOn comma).map trimSpace).filter (· ≠ []), ¬ Overlooked item) ∧
        ((((s.splitOn comma).map trimSpace).filter (· ≠ [])).map nameOf).Nodup := by
  obtain ⟨haccepts, hrejects⟩ := parseBlobResources_accepts s
  unfold KeepsGrammar InGrammar
  generalize ((s.splitOn comma).map trimSpace).filter (· ≠ []) = items at haccepts hrejects ⊢
  by_cases hreads : ∀ item ∈ items, ReadsResource item
  · -- The string is accepted, so it has to be in the grammar.
    have hdocumented : (∀ item ∈ items, Documented item) ↔ ∀ item ∈ items, ¬ Overlooked item :=
      forall₂_congr fun item hitem => documented_iff_not_overlooked (hreads item hitem)
    have hread : ¬ ∃ item ∈ items, ¬ ReadsResource item := by simpa using hreads
    simp only [haccepts.mpr hreads, hdocumented, hread, true_iff, false_or]
    exact ⟨And.left, fun hgrammar => ⟨hgrammar, fun hnot => absurd hgrammar hnot⟩⟩
  · -- The string is refused, and it is not in the grammar.
    have hrefused : ∀ rs, parseBlobResources s ≠ .ok rs := fun rs hrs =>
      hreads (haccepts.mp ⟨rs, hrs⟩)
    obtain ⟨e, he, -⟩ := hrejects hrefused
    have hout : ¬ ((∀ item ∈ items, Documented item) ∧ (items.map nameOf).Nodup) :=
      fun hgrammar => hreads fun item hitem => readsResource_of_documented (hgrammar.1 item hitem)
    have hunread : ∃ item ∈ items, ¬ ReadsResource item := by simpa using hreads
    refine iff_of_true ⟨iff_of_false (fun hok => hreads (haccepts.mp hok)) hout, fun _ => ⟨e, he⟩⟩
      (Or.inl hunread)

theorem not_keepsGrammar {s : GoString} (hout : ¬ InGrammar s) {rs : List BlobResource}
    (hok : parseBlobResources s = .ok rs) : ¬ KeepsGrammar s :=
  fun hkeeps => hout (hkeeps.1.mp ⟨rs, hok⟩)

/-- A strategy that does not exist is accepted, and so are a further field, a blank name, source
or destination, and a name that is used twice. -/
theorem undocumented_accepted :
    parseBlobResources (ascii "a=/s:/d:bogus") =
      .ok [⟨ascii "a", ascii "/s", ascii "/d", ascii "bogus", [], []⟩] ∧
    ¬ InGrammar (ascii "a=/s:/d:bogus") ∧ ¬ KeepsGrammar (ascii "a=/s:/d:bogus") ∧
    ¬ KeepsGrammar (ascii "a=/s:/d:sha:x") ∧ ¬ KeepsGrammar (ascii "=/s:/d") ∧
    ¬ KeepsGrammar (ascii "a=:/d") ∧ ¬ KeepsGrammar (ascii "a=/s:") ∧
    ¬ KeepsGrammar (ascii "a=/s:/d,a=/t:/e") :=
  ⟨rfl, by decide, not_keepsGrammar (by decide) rfl, not_keepsGrammar (by decide) rfl,
    not_keepsGrammar (by decide) rfl, not_keepsGrammar (by decide) rfl,
    not_keepsGrammar (by decide) rfl, not_keepsGrammar (by decide) rfl⟩

end Grammar

end Lbsync.Config
