import Lbsync.Files.Location
import Lbsync.Lib.Percent

/-!
# The routes of the HTTPS server

`Get` and `Keys` put kinds and keys into the path of a request, escaped as path segments. The
server's mux cleans the escaped path, redirects when that changes it, and matches the
unescaped segments with the patterns of `newMux`. A path is the escaped path of a request's URL
here; the paths that `Get` and `Keys` build arrive as they are sent.
-/

namespace Lbsync.Wan

open Files

section Paths

/-- Whether `url.PathEscape` leaves a byte as it is: letters, digits and `-_.~$&+=:@`. -/
def keptInSegment (b : UInt8) : Bool :=
  (97 ≤ b && b ≤ 122) || (65 ≤ b && b ≤ 90) || (48 ≤ b && b ≤ 57) || (ascii "-_.~$&+=:@").contains b

/-- `url.PathEscape`. -/
def pathEscape (s : GoString) : GoString := Percent.escape keptInSegment s

/-- A segment as the mux reads it; one that is not escaped properly is taken as it is. -/
def pathUnescape (s : GoString) : GoString := (Percent.unescape s).getD s

/-- The path of a request for a record. -/
def recordPath (kind key : GoString) : GoString :=
  ascii "/v1/records/" ++ pathEscape kind ++ ascii "/" ++ pathEscape key

/-- The path of a request for the keys of a kind. -/
def keysPath (kind : GoString) : GoString := ascii "/v1/keys/" ++ pathEscape kind

/-- The path records are pushed to. -/
def putPath : GoString := ascii "/v1/records"

/-- The path that answers whether the node is there. -/
def pingPath : GoString := ascii "/v1/ping"

end Paths

section Mux

/-- `cleanPath` of the mux: `path.Clean`, except that a trailing slash stays. -/
def cleanPath (path : GoString) : GoString :=
  let p := if path.head? = some slash then path else slash :: path
  let np := clean p
  if p.getLast? = some slash ∧ np ≠ [slash] then np ++ [slash] else np

/-- One segment of a cleaned path. A trailing slash is a segment of its own. -/
def segment (part : GoString) : GoString := if part = [] then [slash] else pathUnescape part

/-- The segments of a cleaned path. -/
def segments (path : GoString) : List GoString := (splitSlash path.tail).map segment

/-- The methods that the mux tells apart. -/
inductive Method where
  | get | head | put | other
  deriving DecidableEq, Repr

/-- The handlers of a node. -/
inductive Handler where
  | putRecord | getRecord | getKeys | ping
  deriving DecidableEq, Repr

/-- A segment of a pattern. -/
inductive PatternSegment where
  | literal (s : GoString)
  | wildcard
  deriving DecidableEq, Repr

/-- A pattern and its handler. -/
structure Pattern where
  method : Method
  segments : List PatternSegment
  handler : Handler
  deriving DecidableEq, Repr

/-- A pattern for `GET` is one for `HEAD` as well. -/
def Pattern.admits (pat : Pattern) (m : Method) : Bool :=
  pat.method = m || (pat.method = .get && m = .head)

/-- The values of the wildcards, if the segments match. A wildcard does not match a segment
that is a slash. -/
def matchSegments : List PatternSegment → List GoString → Option (List GoString)
  | [], [] => some []
  | .literal s :: pat, seg :: segs => if seg = s then matchSegments pat segs else none
  | .wildcard :: pat, seg :: segs =>
      if seg = [slash] then none else (matchSegments pat segs).map (seg :: ·)
  | _, _ => none

/-- The routes of a node. No request matches two of them. -/
def newMux : List Pattern :=
  [⟨.put, [.literal (ascii "v1"), .literal (ascii "records")], .putRecord⟩,
    ⟨.get, [.literal (ascii "v1"), .literal (ascii "records"), .wildcard, .wildcard], .getRecord⟩,
    ⟨.get, [.literal (ascii "v1"), .literal (ascii "keys"), .wildcard], .getKeys⟩,
    ⟨.get, [.literal (ascii "v1"), .literal (ascii "ping")], .ping⟩]

/-- The handler of a request and the values of its wildcards. -/
def route (m : Method) (segs : List GoString) : Option (Handler × List GoString) :=
  newMux.findSome? fun pat =>
    if pat.admits m then (matchSegments pat.segments segs).map (pat.handler, ·) else none

/-- What the mux does with a request. -/
inductive Dispatch where
  | redirect (path : GoString)
  | handle (h : Handler) (values : List GoString)
  | methodNotAllowed
  | notFound
  deriving DecidableEq, Repr

/-- Find the handler of a request. -/
def dispatch (m : Method) (path : GoString) : Dispatch :=
  if cleanPath path ≠ path then .redirect (cleanPath path)
  else
    match route m (segments path) with
    | some (h, values) => .handle h values
    | none =>
        if newMux.any fun pat => (matchSegments pat.segments (segments path)).isSome then
          .methodNotAllowed
        else .notFound

end Mux

section Cleaning

theorem cleanPath_of_bare {path : GoString} (hhead : path.head? = some slash)
    (hlast : path.getLast? ≠ some slash) : cleanPath path = clean path := by
  rw [cleanPath, if_pos hhead]
  exact if_neg fun h => hlast h.1

theorem cleanPath_of_trailing {path : GoString} (hhead : path.head? = some slash)
    (hlast : path.getLast? = some slash) (hroot : clean path ≠ [slash]) :
    cleanPath path = clean path ++ [slash] := by
  rw [cleanPath, if_pos hhead]
  exact if_pos ⟨hlast, hroot⟩

variable {parts : List GoString}

/-- The cleaned parts of a rooted path are proper components. -/
theorem isComponent_of_mem_components {path part : GoString} (h : part ∈ components true path) :
    IsComponent part := by
  have hstep (out : List GoString) (hout : ascii ".." ∉ out) (next : GoString) :
      ascii ".." ∉ cleanStep true out next := by
    by_cases hup : next = ascii ".."
    · subst hup
      cases out with
      | nil => decide
      | cons last rest =>
          rw [List.mem_cons, not_or] at hout
          rw [cleanStep_up_name (Ne.symm hout.1)]
          exact hout.2
    · intro hmem
      rcases mem_cleanStep hmem with hmem | ⟨heq, -⟩
      · exact hout hmem
      · exact hup heq.symm
  have hfold (parts out : List GoString) (hout : ascii ".." ∉ out) :
      ascii ".." ∉ parts.foldl (cleanStep true) out := by
    induction parts generalizing out with
    | nil => exact hout
    | cons next rest ih => exact ih _ (hstep out hout next)
  obtain ⟨hslash, hnil, hdot⟩ := kept_of_mem_components h
  refine ⟨hslash, hnil, hdot, fun hup => ?_⟩
  exact hfold (splitSlash path) [] List.not_mem_nil (hup ▸ List.mem_reverse.mp h)

theorem foldl_cleanStep_components (hparts : ∀ part ∈ parts, IsComponent part)
    (out : List GoString) : parts.foldl (cleanStep true) out = parts.reverse ++ out := by
  induction parts generalizing out with
  | nil => rfl
  | cons first rest ih =>
      obtain ⟨-, hnil, hdot, hup⟩ := hparts first List.mem_cons_self
      rw [List.foldl_cons, cleanStep_name (not_or.mpr ⟨hnil, hdot⟩) hup,
        ih fun part hpart => hparts part (List.mem_cons_of_mem _ hpart), List.reverse_cons,
        List.append_assoc]
      rfl

variable (hne : parts ≠ []) (hparts : ∀ part ∈ parts, slash ∉ part)

include hne hparts

theorem splitSlash_render : splitSlash (render true parts) = [] :: parts := by
  rw [← splitSlash_intercalate hne hparts]
  simp [render, splitSlash, splitSlash_intercalate hne hparts]

/-- Cleaning leaves a path without empty parts as it is exactly when its parts are proper
components. -/
theorem clean_render_iff (hnil : [] ∉ parts) :
    clean (render true parts) = render true parts ↔ ∀ part ∈ parts, IsComponent part := by
  have hclean : clean (render true parts) = render true (components true (render true parts)) :=
    clean_of_rooted rfl
  constructor
  · intro h part hpart
    have hsplit := congrArg splitSlash h
    rw [hclean, splitSlash_render hne hparts] at hsplit
    by_cases hroot : components true (render true parts) = []
    · have hslash : splitSlash (render true []) = [[], []] := rfl
      rw [hroot, hslash] at hsplit
      exact absurd ((List.cons.inj hsplit).2 ▸ List.mem_singleton.mpr rfl) hnil
    · rw [splitSlash_render hroot fun part hpart =>
        (isComponent_of_mem_components hpart).1] at hsplit
      exact isComponent_of_mem_components ((List.cons.inj hsplit).2 ▸ hpart)
  · intro h
    have hsame : components true (render true parts) = parts := by
      rw [components, splitSlash_render hne hparts, List.foldl_cons,
        cleanStep_skip (Or.inl rfl), foldl_cleanStep_components h, List.append_nil,
        List.reverse_reverse]
    rw [hclean, hsame]

/-- The mux sees a path without empty parts as clean exactly when its parts are proper
components. -/
theorem cleanPath_render_iff (hnil : [] ∉ parts) :
    cleanPath (render true parts) = render true parts ↔ ∀ part ∈ parts, IsComponent part := by
  have hlast : (render true parts).getLast? ≠ some slash := by
    obtain ⟨init, last, rfl⟩ := (List.eq_nil_or_concat' parts).resolve_left hne
    have hmem : last ∈ init ++ [last] := List.mem_append_right init (List.mem_singleton.mpr rfl)
    have hlast : last ≠ [] := fun h => hnil (h ▸ hmem)
    rw [render_append, List.getLast?_append_of_ne_nil _ hlast]
    exact fun h => hparts last hmem (List.mem_of_getLast? h)
  rw [← clean_render_iff hne hparts hnil, cleanPath_of_bare rfl hlast]

theorem segments_render : segments (render true parts) = parts.map segment := by
  have htail : (render true parts).tail = [slash].intercalate parts := rfl
  rw [segments, htail, splitSlash_intercalate hne hparts]

/-- A request is handled when its path is clean and its segments match. -/
theorem dispatch_render_iff {m : Method} {h : Handler} {values : List GoString} :
    dispatch m (render true parts) = .handle h values ↔
      cleanPath (render true parts) = render true parts ∧
        route m (parts.map segment) = some (h, values) := by
  unfold dispatch
  rw [segments_render hne hparts]
  by_cases hclean : cleanPath (render true parts) = render true parts
  · rw [if_neg (not_not.mpr hclean)]
    cases hroute : route m (parts.map segment) with
    | some found => simp [hclean, Prod.ext_iff]
    | none =>
        simp only [reduceCtorEq, and_false, iff_false]
        split_ifs <;> simp
  · simp [hclean]

end Cleaning

section Escaping

variable {s : GoString}

theorem slash_notMem_pathEscape (s : GoString) : slash ∉ pathEscape s :=
  Percent.notMem_escape (by decide) (by decide) (by decide) s

theorem pathEscape_injective : Function.Injective pathEscape :=
  Percent.escape_injective (by decide)

theorem pathEscape_eq_nil_iff : pathEscape s = [] ↔ s = [] := by
  exact pathEscape_injective.eq_iff (b := [])

/-- An escaped text is a proper component unless it stands for no text, `.` or `..`. -/
theorem isComponent_pathEscape_iff :
    IsComponent (pathEscape s) ↔ s ≠ [] ∧ s ≠ ascii "." ∧ s ≠ ascii ".." := by
  have hdot : pathEscape (ascii ".") = ascii "." := by decide
  have hdots : pathEscape (ascii "..") = ascii ".." := by decide
  have hiff (t : GoString) (ht : pathEscape t = t) : pathEscape s = t ↔ s = t := by
    simpa only [ht] using pathEscape_injective.eq_iff (a := s) (b := t)
  simp only [IsComponent, slash_notMem_pathEscape, not_false_eq_true, true_and, ne_eq,
    pathEscape_eq_nil_iff, hiff _ hdot, hiff _ hdots]

/-- An escaped segment is read back, except that no text is read as a slash. -/
theorem segment_pathEscape (s : GoString) :
    segment (pathEscape s) = if s = [] then [slash] else s := by
  have hread : pathUnescape (pathEscape s) = s := by
    rw [pathUnescape, pathEscape, Percent.unescape_escape (by decide)]
    rfl
  simp only [segment, pathEscape_eq_nil_iff, hread]

end Escaping

/-- What a segment of a path can stand for. -/
def Routable (s : GoString) : Prop :=
  s ≠ [] ∧ s ≠ ascii "." ∧ s ≠ ascii ".." ∧ s ≠ ascii "/"

instance decidableRoutable (s : GoString) : Decidable (Routable s) :=
  inferInstanceAs (Decidable (_ ∧ _))

theorem routable_iff {s : GoString} :
    Routable s ↔ IsComponent (pathEscape s) ∧ segment (pathEscape s) ≠ [slash] := by
  rw [isComponent_pathEscape_iff, segment_pathEscape]
  by_cases hnil : s = []
  · simp [Routable, hnil]
  · simp only [Routable, hnil, if_false, and_assoc]
    rfl

section Requests

/-- A request whose path has some literals and then escaped values is handled with these
values exactly when all of them can stand in a path. -/
theorem handled_iff {m : Method} {h : Handler} {lits values : List GoString} (hne : lits ≠ [])
    (hlits : ∀ lit ∈ lits, IsComponent lit ∧ segment lit = lit)
    (hroute : ∀ segs, segs.length = values.length →
      route m (lits ++ segs) = if [slash] ∈ segs then none else some (h, segs)) :
    dispatch m (render true (lits ++ values.map pathEscape)) = .handle h values ↔
      ∀ v ∈ values, Routable v := by
  have hparts : ∀ part ∈ lits ++ values.map pathEscape, slash ∉ part := by
    intro part hpart
    rcases List.mem_append.mp hpart with hlit | hvalue
    · exact (hlits part hlit).1.1
    · obtain ⟨v, -, rfl⟩ := List.mem_map.mp hvalue
      exact slash_notMem_pathEscape v
  have hsegs : (lits ++ values.map pathEscape).map segment =
      lits ++ values.map fun v => segment (pathEscape v) := by
    rw [List.map_append, List.map_map, List.map_congr_left fun lit hlit => (hlits lit hlit).2,
      List.map_id']
    rfl
  rw [dispatch_render_iff (List.append_ne_nil_of_left_ne_nil hne _) hparts, hsegs,
    hroute _ (List.length_map _)]
  by_cases hslash : [slash] ∈ values.map fun v => segment (pathEscape v)
  · -- a value that is read as a slash matches no wildcard
    obtain ⟨v, hv, hseg⟩ := List.mem_map.mp hslash
    simp only [hslash, if_true, reduceCtorEq, and_false, false_iff]
    exact fun hall => (routable_iff.mp (hall v hv)).2 hseg
  · have hread : ∀ v ∈ values, segment (pathEscape v) ≠ [slash] :=
      fun v hv hseg => hslash (hseg ▸ List.mem_map_of_mem hv)
    have hproper : ∀ v ∈ values, v ≠ [] := by
      rintro v hv rfl
      exact hread [] hv rfl
    have hvalues : (values.map fun v => segment (pathEscape v)) = values := by
      refine (List.map_congr_left fun v hv => ?_).trans (List.map_id values)
      rw [segment_pathEscape, if_neg (hproper v hv)]
      rfl
    have hnil : [] ∉ lits ++ values.map pathEscape := by
      rw [List.mem_append, not_or]
      refine ⟨fun hmem => (hlits [] hmem).1.2.1 rfl, fun hmem => ?_⟩
      obtain ⟨v, hv, hempty⟩ := List.mem_map.mp hmem
      exact hproper v hv (pathEscape_eq_nil_iff.mp hempty)
    rw [if_neg hslash, hvalues,
      cleanPath_render_iff (List.append_ne_nil_of_left_ne_nil hne _) hparts hnil]
    constructor
    · rintro ⟨hcomponents, -⟩ v hv
      exact routable_iff.mpr
        ⟨hcomponents _ (List.mem_append_right lits (List.mem_map_of_mem hv)), hread v hv⟩
    · intro hall
      refine ⟨fun part hpart => ?_, rfl⟩
      rcases List.mem_append.mp hpart with hlit | hvalue
      · exact (hlits part hlit).1
      · obtain ⟨v, hv, rfl⟩ := List.mem_map.mp hvalue
        exact (routable_iff.mp (hall v hv)).1

theorem route_records (kind key : GoString) :
    route .get [ascii "v1", ascii "records", kind, key] =
      if [slash] ∈ [kind, key] then none else some (.getRecord, [kind, key]) := by
  have hnames : ascii "records" ≠ ascii "keys" ∧ ascii "records" ≠ ascii "ping" := by decide
  by_cases hkind : [slash] = kind
  · simp [route, newMux, Pattern.admits, matchSegments, ← hkind, hnames]
  · by_cases hkey : [slash] = key
    · simp [route, newMux, Pattern.admits, matchSegments, Ne.symm hkind, ← hkey, hnames]
    · simp [route, newMux, Pattern.admits, matchSegments, Ne.symm hkind, Ne.symm hkey, hkind, hkey]

theorem route_keys (kind : GoString) :
    route .get [ascii "v1", ascii "keys", kind] =
      if [slash] ∈ [kind] then none else some (.getKeys, [kind]) := by
  have hnames : ascii "keys" ≠ ascii "records" ∧ ascii "keys" ≠ ascii "ping" := by decide
  by_cases hkind : [slash] = kind
  · simp [route, newMux, Pattern.admits, matchSegments, ← hkind, hnames]
  · simp [route, newMux, Pattern.admits, matchSegments, Ne.symm hkind, hkind, hnames]

theorem dispatch_recordPath_iff (kind key : GoString) :
    dispatch .get (recordPath kind key) = .handle .getRecord [kind, key] ↔
      Routable kind ∧ Routable key := by
  have hpath : recordPath kind key =
      render true ([ascii "v1", ascii "records"] ++ [kind, key].map pathEscape) := by
    simp [recordPath, render, List.intercalate, ascii, slash]
  rw [hpath, handled_iff (by simp) (by decide +kernel)]
  · simp
  · intro segs hlength
    obtain ⟨k, y, rfl⟩ := List.length_eq_two.mp hlength
    exact route_records k y

theorem dispatch_keysPath_iff (kind : GoString) :
    dispatch .get (keysPath kind) = .handle .getKeys [kind] ↔ Routable kind := by
  have hpath : keysPath kind =
      render true ([ascii "v1", ascii "keys"] ++ [kind].map pathEscape) := by
    simp [keysPath, render, List.intercalate, ascii, slash]
  rw [hpath, handled_iff (by simp) (by decide +kernel)]
  · simp
  · intro segs hlength
    obtain ⟨k, rfl⟩ := List.length_eq_one_iff.mp hlength
    exact route_keys k

/-- A request of the client, which follows a redirect. -/
def reach (path : GoString) : Dispatch :=
  match dispatch .get path with
  | .redirect path' => dispatch .get path'
  | d => d

theorem reach_of_handle {path : GoString} {h : Handler} {values : List GoString}
    (hpath : dispatch .get path = .handle h values) : reach path = .handle h values := by
  rw [reach, hpath]

/-- Without a match there is no handler. -/
theorem dispatch_ne_handle {m : Method} {path : GoString} (hroute : route m (segments path) = none)
    (h : Handler) (values : List GoString) : dispatch m path ≠ .handle h values := by
  unfold dispatch
  rw [hroute]
  split_ifs <;> simp

/-- No pattern for `GET` is as short as the path to which records are pushed, and none with one
more segment starts with it. -/
theorem route_records_short (segs : List GoString) (hsegs : segs.length ≤ 1) :
    route .get ([ascii "v1", ascii "records"] ++ segs) = none := by
  have hnames : ascii "records" ≠ ascii "keys" ∧ ascii "records" ≠ ascii "ping" := by decide
  rcases segs with _ | ⟨kind, _ | ⟨_, _⟩⟩
  · simp [route, newMux, Pattern.admits, matchSegments, hnames]
  · simp [route, newMux, Pattern.admits, matchSegments, hnames]
  · simp at hsegs

/-- Cleaning a path of proper components and one more part. -/
theorem clean_render_append {parts : List GoString} (hparts : ∀ part ∈ parts, IsComponent part)
    {last : GoString} (hlast : slash ∉ last) :
    clean (render true (parts ++ [last])) =
      render true (cleanStep true parts.reverse last).reverse := by
  have hall : ∀ part ∈ parts ++ [last], slash ∉ part := by
    intro part hpart
    rcases List.mem_append.mp hpart with hmem | hmem
    · exact (hparts part hmem).1
    · exact List.mem_singleton.mp hmem ▸ hlast
  rw [clean_of_rooted rfl, components, splitSlash_render (by simp) hall, List.foldl_cons,
    cleanStep_skip (Or.inl rfl), List.foldl_append, foldl_cleanStep_components hparts,
    List.append_nil, List.foldl_cons, List.foldl_nil]
  rfl

theorem getLast_render_append (parts : List GoString) {last : GoString} (hlast : last ≠ []) :
    (render true (parts ++ [last])).getLast? = last.getLast? := by
  rw [render_append, List.getLast?_append_of_ne_nil _ hlast]

/-- A request that is redirected to a path without a match reaches no handler. -/
theorem reach_ne_handle {path : GoString}
    (hroute : route .get (segments (cleanPath path)) = none) (h : Handler)
    (values : List GoString) : reach path ≠ .handle h values := by
  have hnone := dispatch_ne_handle hroute h values
  by_cases hpath : cleanPath path = path
  · rw [hpath] at hnone hroute
    unfold reach
    have hstay : ∀ path', dispatch .get path ≠ .redirect path' := by
      intro path'
      unfold dispatch
      rw [if_neg (not_not.mpr hpath), hroute]
      simp only
      split_ifs <;> simp
    split
    · exact absurd ‹_› (hstay _)
    · exact hnone
  · have hredirect : dispatch .get path = .redirect (cleanPath path) := by
      unfold dispatch
      rw [if_pos hpath]
    rw [reach, hredirect]
    exact hnone

/-- A path of literals and escaped segments, read by the mux. -/
theorem segments_records {parts : List GoString} (hparts : ∀ part ∈ parts, slash ∉ part) :
    segments (render true ([ascii "v1", ascii "records"] ++ parts)) =
      [ascii "v1", ascii "records"] ++ parts.map segment := by
  have hall : ∀ part ∈ [ascii "v1", ascii "records"] ++ parts, slash ∉ part := by
    intro part hpart
    rcases List.mem_append.mp hpart with hlit | hmem
    · exact (show ∀ lit ∈ [ascii "v1", ascii "records"], slash ∉ lit by decide) part hlit
    · exact hparts part hmem
  have hlits : [ascii "v1", ascii "records"].map segment = [ascii "v1", ascii "records"] := by
    decide +kernel
  rw [segments_render (by simp) hall, List.map_append, hlits]

/-- The parts of a record's path before the key. -/
def recordsOf (kind : GoString) : List GoString := [ascii "v1", ascii "records", pathEscape kind]

theorem recordPath_eq (kind key : GoString) :
    recordPath kind key = render true (recordsOf kind ++ [pathEscape key]) := by
  simp [recordPath, render, List.intercalate, ascii, slash, recordsOf]

theorem isComponent_recordsOf {kind : GoString} (hkind : Routable kind) :
    ∀ part ∈ recordsOf kind, IsComponent part := by
  intro part hpart
  simp only [recordsOf, List.mem_cons, List.not_mem_nil, or_false] at hpart
  rcases hpart with rfl | rfl | rfl
  · decide
  · decide
  · exact (routable_iff.mp hkind).1

/-- A path with no key has a trailing slash, which cleaning leaves. -/
theorem cleanPath_no_key {kind : GoString} (hkind : Routable kind) :
    cleanPath (recordPath kind []) = recordPath kind [] := by
  have hclean : clean (recordPath kind []) = render true (recordsOf kind) := by
    rw [recordPath_eq, clean_render_append (isComponent_recordsOf hkind)
      (slash_notMem_pathEscape [])]
    rfl
  have htrailing : recordPath kind [] = render true (recordsOf kind) ++ [slash] := by
    simp [recordPath, render, List.intercalate, ascii, slash, recordsOf, pathEscape,
      Percent.escape]
  have hroot : render true (recordsOf kind) ≠ [slash] := by
    simp [render, List.intercalate, recordsOf, ascii]
  have hlast : (recordPath kind []).getLast? = some slash := by
    rw [htrailing, List.getLast?_concat]
  rw [cleanPath_of_trailing rfl hlast (hclean ▸ hroot), hclean, htrailing]

/-- A key of dots is cleaned away, and two dots take the kind with them. -/
theorem cleanPath_dots {kind key : GoString} (hkind : Routable kind)
    (hkey : key = ascii "." ∨ key = ascii "..") :
    ∃ parts : List GoString, parts.length ≤ 1 ∧ (∀ part ∈ parts, slash ∉ part) ∧
      cleanPath (recordPath kind key) =
        render true ([ascii "v1", ascii "records"] ++ parts) := by
  have hescape : pathEscape key = key ∧ key ≠ [] := by
    rcases hkey with rfl | rfl <;> decide
  have hlast : (recordPath kind key).getLast? ≠ some slash := by
    rw [recordPath_eq, getLast_render_append _ (mt pathEscape_eq_nil_iff.mp hescape.2)]
    exact fun hlast => slash_notMem_pathEscape key (List.mem_of_getLast? hlast)
  have hclean := clean_render_append (isComponent_recordsOf hkind) (slash_notMem_pathEscape key)
  rw [← recordPath_eq, hescape.1] at hclean
  rw [cleanPath_of_bare rfl hlast, hclean]
  rcases hkey with rfl | rfl
  · refine ⟨[pathEscape kind], le_rfl, by simp [slash_notMem_pathEscape], ?_⟩
    rw [cleanStep_skip (Or.inr rfl), List.reverse_reverse]
    rfl
  · have hup : cleanStep true (recordsOf kind).reverse (ascii "..") =
        [ascii "records", ascii "v1"] :=
      cleanStep_up_name (isComponent_recordsOf hkind (pathEscape kind) (by simp [recordsOf])).2.2.2
    refine ⟨[], Nat.zero_le 1, by simp, ?_⟩
    rw [hup]
    rfl

/-- A request for a key that cannot stand in a path reaches no handler, also after a redirect. -/
theorem reach_unroutable {kind key : GoString} (hkind : Routable kind) (hkey : ¬ Routable key)
    (h : Handler) (values : List GoString) : reach (recordPath kind key) ≠ .handle h values := by
  have hread (hsame : cleanPath (recordPath kind key) = recordPath kind key)
      (hslash : segment (pathEscape key) = [slash]) :
      route .get (segments (cleanPath (recordPath kind key))) = none := by
    have hparts : ∀ part ∈ [pathEscape kind, pathEscape key], slash ∉ part := by
      simp [slash_notMem_pathEscape]
    have hsegs := segments_records hparts
    rw [hsame, recordPath_eq]
    refine (congrArg (route .get) hsegs).trans ((route_records _ _).trans (if_pos ?_))
    simp [hslash]
  apply reach_ne_handle
  by_cases hnil : key = []
  · subst hnil
    exact hread (cleanPath_no_key hkind) rfl
  by_cases hslash : key = ascii "/"
  · subst hslash
    refine hread ?_ (by decide)
    have hall : ∀ part ∈ recordsOf kind ++ [pathEscape (ascii "/")], IsComponent part := by
      intro part hpart
      rcases List.mem_append.mp hpart with hmem | hmem
      · exact isComponent_recordsOf hkind part hmem
      · exact List.mem_singleton.mp hmem ▸ by decide
    rw [recordPath_eq, cleanPath_render_iff (by simp) (fun part hpart => (hall part hpart).1)
      fun hmem => (hall [] hmem).2.1 rfl]
    exact hall
  · have hdots : key = ascii "." ∨ key = ascii ".." := by
      by_contra hnot
      obtain ⟨hdot, hdots⟩ := not_or.mp hnot
      exact hkey ⟨hnil, hdot, hdots, hslash⟩
    obtain ⟨parts, hlength, hparts, hclean⟩ := cleanPath_dots hkind hdots
    rw [hclean, segments_records hparts]
    exact route_records_short _ (by simpa using hlength)

/-- A request for a record reaches its handler with the kind and the key it was made for,
whatever bytes they have, unless one of them is empty, a dot, two dots or a slash; likewise a
request for the keys of a kind. With such a key no handler is reached, also when the client
follows a redirect. -/
theorem requests_routed :
    (∀ kind key, dispatch .get (recordPath kind key) = .handle .getRecord [kind, key] ↔
      Routable kind ∧ Routable key) ∧
    (∀ kind key, Routable kind → ¬ Routable key →
      ∀ h values, reach (recordPath kind key) ≠ .handle h values) ∧
    (∀ kind, dispatch .get (keysPath kind) = .handle .getKeys [kind] ↔ Routable kind) ∧
    dispatch .put putPath = .handle .putRecord [] ∧ dispatch .get pingPath = .handle .ping [] :=
  ⟨dispatch_recordPath_iff, fun _ _ hkind hkey => reach_unroutable hkind hkey,
    dispatch_keysPath_iff, by decide +kernel, by decide +kernel⟩

end Requests

end Lbsync.Wan
