import Lbsync.Config.BlobResources

/-!
# Writing the blob resources down

Resources are written as `name=src:dest:strategy` and joined by commas, with white space
around them and blank items in between. Reading the text gives the resources back, in
order. White space inside a source, a destination or the front of a strategy is kept:
the item is trimmed as a whole, and its name is trimmed once more.
-/

namespace Lbsync.Config

/-- A text of white space. -/
def IsBlank (s : GoString) : Prop :=
  ∃ spaces : List GoString, (∀ w ∈ spaces, w ∈ whiteSpace) ∧ s = spaces.flatten

/-- A resource with all its fields written out. -/
def BlobResource.render (r : BlobResource) : GoString :=
  r.name ++ equals :: (r.source ++ colon :: (r.dest ++ colon :: r.strategy))

/-- What is written of a resource. Its commands have no place in the text. -/
def BlobResource.written (r : BlobResource) : BlobResource := { r with verify := [], reload := [] }

/-- The fields can be told apart in the text. -/
structure Renderable (r : BlobResource) : Prop where
  name_trimmed : trimSpace r.name = r.name
  name_free : comma ∉ r.name ∧ equals ∉ r.name
  source_free : comma ∉ r.source ∧ colon ∉ r.source
  dest_free : comma ∉ r.dest ∧ colon ∉ r.dest
  strategy_free : comma ∉ r.strategy ∧ colon ∉ r.strategy
  strategy_nonempty : r.strategy ≠ []
  strategy_end : Trim.trimRight whiteSpace r.strategy = r.strategy

/-- The items of a text for a list of resources: each with white space around it, and blank
items anywhere between them. -/
inductive Rendered : List BlobResource → List GoString → Prop
  | nil : Rendered [] []
  | blank {rs : List BlobResource} {items : List GoString} {gap : GoString} (hgap : IsBlank gap)
      (rest : Rendered rs items) : Rendered rs (gap :: items)
  | resource {rs : List BlobResource} {items : List GoString} {before after : GoString}
      (r : BlobResource) (hbefore : IsBlank before) (hafter : IsBlank after)
      (rest : Rendered rs items) : Rendered (r :: rs) ((before ++ (r.render ++ after)) :: items)

section WhiteSpace

theorem prefixFree_whiteSpace : Trim.PrefixFree whiteSpace := ⟨by decide, by decide⟩

theorem suffixFree_whiteSpace : Trim.PrefixFree (whiteSpace.map List.reverse) :=
  ⟨by decide, by decide⟩

theorem equals_notMem_whiteSpace : ∀ w ∈ whiteSpace, equals ∉ w := by decide

theorem colon_notMem_whiteSpace : ∀ w ∈ whiteSpace, colon ∉ w := by decide

theorem IsBlank.comma_notMem {s : GoString} (h : IsBlank s) : comma ∉ s := by
  obtain ⟨spaces, hspaces, rfl⟩ := h
  intro hmem
  obtain ⟨w, hw, hcomma⟩ := List.mem_flatten.mp hmem
  exact comma_notMem_whiteSpace w (hspaces w hw) hcomma

theorem IsBlank.trimSpace {s : GoString} (h : IsBlank s) : trimSpace s = [] := by
  obtain ⟨spaces, hspaces, rfl⟩ := h
  exact prefixFree_whiteSpace.trim_flatten hspaces

end WhiteSpace

section Items

theorem render_ne_nil (r : BlobResource) : r.render ≠ [] := by
  simp [BlobResource.render]

variable {r : BlobResource} (h : Renderable r)

include h

theorem Renderable.comma_notMem_render : comma ∉ r.render := by
  have hequals : comma ≠ equals := by decide
  have hcolon : comma ≠ colon := by decide
  simp [BlobResource.render, h.name_free.1, h.source_free.1, h.dest_free.1, h.strategy_free.1,
    hequals, hcolon]

/-- The white space around an item is trimmed, and nothing else. The `=` ends what can be trimmed
at the front, and the last `:` what can be trimmed at the end. -/
theorem Renderable.trimSpace_item {before after : GoString} (hbefore : IsBlank before)
    (hafter : IsBlank after) : trimSpace (before ++ (r.render ++ after)) = r.render := by
  obtain ⟨spaces, hspaces, rfl⟩ := hbefore
  obtain ⟨spaces', hspaces', rfl⟩ := hafter
  have hname : Trim.trimLeft whiteSpace r.name = r.name := Trim.trimLeft_eq_self h.name_trimmed
  have hleft : Trim.trimLeft whiteSpace (spaces.flatten ++ (r.render ++ spaces'.flatten)) =
      r.render ++ spaces'.flatten := by
    rw [prefixFree_whiteSpace.trimLeft_flatten_append hspaces, BlobResource.render,
      List.append_assoc, List.cons_append, Trim.trimLeft_append_cons equals_notMem_whiteSpace,
      hname]
  have hlast : r.render =
      (r.name ++ equals :: (r.source ++ colon :: r.dest)) ++ colon :: r.strategy := by
    simp [BlobResource.render]
  rw [trimSpace, Trim.trim, hleft, suffixFree_whiteSpace.trimRight_append_flatten hspaces', hlast,
    Trim.trimRight_append_cons colon_notMem_whiteSpace, h.strategy_end]

/-- Reading one item gives the resource back. -/
theorem Renderable.parseItem_render : parseItem r.render = .ok r.written := by
  have hstrategy : strategyOf [r.strategy] = r.strategy := if_neg h.strategy_nonempty
  have hfields : (r.dest ++ colon :: r.strategy).splitOn colon = [r.dest, r.strategy] := by
    rw [List.splitOn_append_cons_self_of_not_mem h.dest_free.2,
      List.splitOn_eq_singleton h.strategy_free.2]
  refine parseItem_eq_ok_iff.mpr ⟨r.name, r.source, r.dest ++ colon :: r.strategy, r.dest,
    [r.strategy], cut_eq_some_iff.mpr ⟨rfl, h.name_free.2⟩, h.source_free.2, hfields, ?_⟩
  rw [h.name_trimmed, hstrategy]
  rfl

end Items

section Lists

variable {rs : List BlobResource} {items : List GoString}

theorem Rendered.comma_notMem (h : Rendered rs items) (hrs : ∀ r ∈ rs, Renderable r) :
    ∀ item ∈ items, comma ∉ item := by
  induction h with
  | nil => exact nofun
  | blank hgap _ ih =>
      intro item hitem
      rcases List.mem_cons.mp hitem with rfl | hitem
      · exact hgap.comma_notMem
      · exact ih hrs item hitem
  | resource r hbefore hafter _ ih =>
      obtain ⟨hr, hrest⟩ := List.forall_mem_cons.mp hrs
      intro item hitem
      rcases List.mem_cons.mp hitem with rfl | hitem
      · simp [hbefore.comma_notMem, hafter.comma_notMem, hr.comma_notMem_render]
      · exact ih hrest item hitem

/-- Trimming the items and dropping the blank ones leaves the resources as they were written. -/
theorem Rendered.nonblank (h : Rendered rs items) (hrs : ∀ r ∈ rs, Renderable r) :
    (items.map trimSpace).filter (· ≠ []) = rs.map BlobResource.render := by
  induction h with
  | nil => rfl
  | blank hgap _ ih => simpa [hgap.trimSpace] using ih hrs
  | resource r hbefore hafter _ ih =>
      obtain ⟨hr, hrest⟩ := List.forall_mem_cons.mp hrs
      simpa [hr.trimSpace_item hbefore hafter, render_ne_nil r] using ih hrest

/-- A list of items that all read as resources gives these resources. -/
theorem parseItems_of_map (h : items.map parseItem = rs.map .ok) :
    parseItems [] items = .ok rs := by
  rcases parseItems_spec items [] with ⟨rs', hrun, hall⟩ | ⟨e, -, hmem, herror⟩
  · have hsame : rs' = rs :=
      List.map_injective_iff.mpr (fun _ _ => Except.ok.inj) (hall.symm.trans h)
    rw [hrun, hsame]
    rfl
  · have hresult : parseItem e.item ∈ rs.map .ok := h ▸ List.mem_map_of_mem hmem
    obtain ⟨r, -, hr⟩ := List.mem_map.mp hresult
    rw [herror] at hr
    cases hr

/-- Resources whose fields can be told apart are read back from the text they are written to,
whatever white space and blank items stand in it. -/
theorem parseBlobResources_rendered (rs : List BlobResource) (hrs : ∀ r ∈ rs, Renderable r)
    (items : List GoString) (h : Rendered rs items) :
    parseBlobResources ([comma].intercalate items) = .ok (rs.map BlobResource.written) := by
  have hitems : parseList ([comma].intercalate items) = rs.map BlobResource.render := by
    rw [parseList_eq, ← h.nonblank hrs]
    by_cases hnone : items = []
    · subst hnone
      rfl
    · rw [List.splitOn_intercalate comma (h.comma_notMem hrs) hnone]
  rw [parseBlobResources, hitems]
  apply parseItems_of_map
  rw [List.map_map, List.map_map]
  exact List.map_congr_left fun r hr => (hrs r hr).parseItem_render

/-- A source with a `=` and a space in it, between blank items and with white space around it. -/
theorem spaced_resource_read_back :
    let r : BlobResource := ⟨ascii "web", ascii "/s=1 a", ascii "/d", ascii "sha", [], []⟩
    let items : List GoString := [ascii " ", ascii " " ++ (r.render ++ ascii "\t\n"), []]
    [comma].intercalate items = ascii " , web=/s=1 a:/d:sha\t\n," ∧
      parseBlobResources ([comma].intercalate items) = .ok [r] := by
  intro r items
  have hspace : IsBlank (ascii " ") := ⟨[ascii " "], by decide, rfl⟩
  have hlines : IsBlank (ascii "\t\n") := ⟨[ascii "\t", ascii "\n"], by decide, rfl⟩
  have hr : Renderable r := by
    constructor <;> decide
  have hitems : Rendered [r] items :=
    .blank hspace (.resource r hspace hlines (.blank ⟨[], nofun, rfl⟩ .nil))
  exact ⟨by decide, parseBlobResources_rendered [r] (by simpa using hr) items hitems⟩

end Lists

end Lbsync.Config
