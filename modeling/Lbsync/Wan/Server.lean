import Lbsync.Lib.Decoding
import Lbsync.Wan.Merge
import Lbsync.Wan.Routes

/-!
# The server of a node

A store holds the bytes of records, and the server answers whatever requests come in. A pushed
body is decoded before it is stored, under the name of the record it stands for, so every body
in a store can be decoded again. No request takes a record away, makes it older or leaves
something in its place that was not pushed as a whole.
-/

namespace Lbsync.Wan

open Engine

/-- What gob makes of bytes, and of the lists of keys that are sent. -/
structure Gob where
  decodeRecord : Bytes → Option Record
  encodeStrings : List GoString → Bytes
  decodeStrings : Bytes → Option (List GoString)

/-- The store of one node, by the bytes it holds. -/
abbrev RawStore := AList fun _ : GoString => Bytes

/-- A request, with the escaped path of its URL. -/
structure Request where
  method : Method
  path : GoString
  body : Bytes
  deriving DecidableEq

/-- The answers of a server that a client tells apart, with what they carry. -/
inductive Response where
  | ok (body : Bytes)
  | noContent
  | badRequest
  | redirect (path : GoString)
  | methodNotAllowed
  | notFound
  deriving DecidableEq

variable (gob : Gob)

/-- `handlePutRecord`: a body that cannot be decoded is refused. It is stored unless a record
that is not older is there; a stored body that cannot be decoded is replaced. -/
def storeBody (body : Bytes) (st : RawStore) : Response × RawStore :=
  match gob.decodeRecord body with
  | none => (.badRequest, st)
  | some r =>
      match st.lookup (storeKey r.kind r.key) with
      | none => (.noContent, st.insert (storeKey r.kind r.key) body)
      | some existing =>
          match gob.decodeRecord existing with
          | none => (.noContent, st.insert (storeKey r.kind r.key) body)
          | some existingRec =>
              if r.version.newer existingRec.version then
                (.noContent, st.insert (storeKey r.kind r.key) body)
              else (.noContent, st)

/-- `handleGetRecord`. -/
def sendBody (kind key : GoString) (st : RawStore) : Response :=
  match st.lookup (storeKey kind key) with
  | some raw => .ok raw
  | none => .notFound

/-- `handleGetKeys`. -/
def sendKeys (kind : GoString) (st : RawStore) : Response :=
  .ok (gob.encodeStrings (st.keys.filterMap (keyIn kind)))

/-- Answer a request. -/
def serve (req : Request) (st : RawStore) : Response × RawStore :=
  match dispatch req.method req.path with
  | .handle .putRecord _ => storeBody gob req.body st
  | .handle .getRecord [kind, key] => (sendBody kind key st, st)
  | .handle .getKeys [kind] => (sendKeys gob kind st, st)
  | .handle .ping _ => (.ok (ascii "pong"), st)
  | .handle _ _ => (.notFound, st)
  | .redirect path => (.redirect path, st)
  | .methodNotAllowed => (.methodNotAllowed, st)
  | .notFound => (.notFound, st)

/-- The records of a store. -/
def decodeStore (st : RawStore) : Store := Decoding.decoded gob.decodeRecord st

/-- Every body of a store can be decoded and stands under the name of its record. -/
def WellStored (st : RawStore) : Prop :=
  ∀ name raw, st.lookup name = some raw →
    ∃ r, gob.decodeRecord raw = some r ∧ name = storeKey r.kind r.key

/-- The record that a request pushes. -/
def pushedBy (req : Request) : Option Record :=
  match dispatch req.method req.path with
  | .handle .putRecord _ => gob.decodeRecord req.body
  | _ => none

section Stores

variable {gob} {st : RawStore}

theorem wellStored_empty : WellStored gob ∅ := nofun

theorem WellStored.insert (h : WellStored gob st) {body : Bytes} {r : Record}
    (hbody : gob.decodeRecord body = some r) :
    WellStored gob (st.insert (storeKey r.kind r.key) body) := by
  intro name raw hraw
  by_cases hname : name = storeKey r.kind r.key
  · subst hname
    rw [AList.lookup_insert] at hraw
    exact ⟨r, Option.some.inj hraw ▸ hbody, rfl⟩
  · rw [AList.lookup_insert_ne hname] at hraw
    exact h name raw hraw

/-- A body is stored or the store stays as it is. -/
theorem storeBody_cases {body : Bytes} {r : Record} (hbody : gob.decodeRecord body = some r) :
    (storeBody gob body st).2 = st ∨
      (storeBody gob body st).2 = st.insert (storeKey r.kind r.key) body := by
  simp only [storeBody, hbody]
  cases st.lookup (storeKey r.kind r.key) with
  | none => exact Or.inr rfl
  | some existing =>
      cases hold : gob.decodeRecord existing with
      | none => simp only [hold, or_true]
      | some old =>
          simp only [hold]
          split_ifs
          · exact Or.inr rfl
          · exact Or.inl rfl

theorem storeBody_of_none {body : Bytes} (hbody : gob.decodeRecord body = none) :
    (storeBody gob body st).2 = st := by
  simp only [storeBody, hbody]

theorem WellStored.storeBody (h : WellStored gob st) (body : Bytes) :
    WellStored gob (storeBody gob body st).2 := by
  cases hbody : gob.decodeRecord body with
  | none => rwa [storeBody_of_none hbody]
  | some r =>
      rcases storeBody_cases hbody with hsame | hstored
      · rwa [hsame]
      · rw [hstored]
        exact h.insert hbody

/-- Pushing bytes is pushing the record they stand for. -/
theorem decodeStore_storeBody {body : Bytes} {r : Record} (hbody : gob.decodeRecord body = some r) :
    decodeStore gob (storeBody gob body st).2 = handlePutRecord r (decodeStore gob st) := by
  have hinsert : decodeStore gob (st.insert (storeKey r.kind r.key) body) =
      (decodeStore gob st).insert (storeKey r.kind r.key) r :=
    Decoding.decoded_insert _ st _ hbody
  have hlookup := Decoding.lookup_decoded gob.decodeRecord st (storeKey r.kind r.key)
  simp only [storeBody, hbody, handlePutRecord, decodeStore] at hinsert ⊢
  rw [hlookup]
  cases st.lookup (storeKey r.kind r.key) with
  | none => exact hinsert
  | some existing =>
      cases hold : gob.decodeRecord existing with
      | none => simpa only [Option.bind_some, hold] using hinsert
      | some old =>
          simp only [Option.bind_some, hold]
          by_cases hnew : r.version.newer old.version = true
          · simpa only [hnew, if_true] using hinsert
          · simp only [hnew, Bool.false_eq_true, if_false]

theorem keys_decodeStore (h : WellStored gob st) : (decodeStore gob st).keys = st.keys := by
  refine Decoding.keys_decoded _ fun e he => ?_
  obtain ⟨r, hr, -⟩ := h e.1 e.2 ((List.mem_dlookup_iff st.nodupKeys).mpr he)
  exact Option.isSome_iff_exists.mpr ⟨r, hr⟩

/-- The keys that are sent are those of the records. -/
theorem sendKeys_eq (h : WellStored gob st) (kind : GoString) :
    sendKeys gob kind st = .ok (gob.encodeStrings (handleGetKeys kind (decodeStore gob st))) := by
  rw [handleGetKeys, keys_decodeStore h, sendKeys]

theorem serve_of_pushed {req : Request} {r : Record} (h : pushedBy gob req = some r) :
    (serve gob req st).2 = (storeBody gob req.body st).2 ∧ gob.decodeRecord req.body = some r := by
  unfold pushedBy at h
  unfold serve
  generalize dispatch req.method req.path = d at h
  cases d with
  | handle handler values =>
      cases handler with
      | putRecord => exact ⟨rfl, h⟩
      | _ => cases h
  | _ => cases h

/-- Only a push changes a store. -/
theorem serve_of_not_pushed {req : Request} (h : pushedBy gob req = none) :
    (serve gob req st).2 = st := by
  unfold pushedBy at h
  unfold serve
  generalize dispatch req.method req.path = d at h
  cases d with
  | handle handler values =>
      cases handler with
      | putRecord => exact storeBody_of_none h
      | getRecord => rcases values with _ | ⟨kind, _ | ⟨key, _ | _⟩⟩ <;> rfl
      | getKeys => rcases values with _ | ⟨kind, _ | _⟩ <;> rfl
      | ping => rfl
  | _ => rfl

theorem WellStored.serve (h : WellStored gob st) (req : Request) :
    WellStored gob (serve gob req st).2 := by
  cases hpushed : pushedBy gob req with
  | none => rwa [serve_of_not_pushed hpushed]
  | some r =>
      rw [(serve_of_pushed hpushed).1]
      exact h.storeBody req.body

/-- To the records, a request is the push of a record or nothing. -/
theorem decodeStore_serve (req : Request) :
    decodeStore gob (serve gob req st).2 =
      ((pushedBy gob req).elim id handlePutRecord) (decodeStore gob st) := by
  cases hpushed : pushedBy gob req with
  | none =>
      rw [serve_of_not_pushed hpushed]
      rfl
  | some r =>
      have hserved : (serve gob req st).2 = (storeBody gob req.body st).2 ∧
          gob.decodeRecord req.body = some r := serve_of_pushed hpushed
      obtain ⟨hserve, hbody⟩ := hserved
      rw [hserve, decodeStore_storeBody hbody]
      rfl

end Stores

section Runs

variable {gob} {st : RawStore}

/-- The store after some requests. -/
def serveAll (gob : Gob) (st : RawStore) (reqs : List Request) : RawStore :=
  reqs.foldl (fun st req => (serve gob req st).2) st

/-- A record under a name is renewed by a request, or stays. -/
theorem renewed_serve (req : Request) (name : GoString) :
    Renewed ((decodeStore gob st).lookup name)
      ((decodeStore gob (serve gob req st).2).lookup name) := by
  rw [decodeStore_serve]
  cases pushedBy gob req with
  | none => exact Or.inl rfl
  | some r =>
      rw [Option.elim_some, lookup_handlePutRecord, ← pickNewer_eq_newest]
      split_ifs
      · exact renewed_pickNewer r _
      · exact Or.inl rfl

/-- A record under a name was there before a request, or the request pushed it. -/
theorem origin_of_serve {req : Request} {name : GoString} {r : Record}
    (h : (decodeStore gob (serve gob req st).2).lookup name = some r) :
    (decodeStore gob st).lookup name = some r ∨
      pushedBy gob req = some r ∧ name = storeKey r.kind r.key := by
  rw [decodeStore_serve] at h
  cases hpushed : pushedBy gob req with
  | none => exact Or.inl (by simpa [hpushed] using h)
  | some pushed =>
      rw [hpushed, Option.elim_some, lookup_handlePutRecord] at h
      split_ifs at h with hname
      · rcases NewestWins.newest_eq_or Record.version (some pushed)
          ((decodeStore gob st).lookup name) with hnew | hold
        · obtain rfl := Option.some.inj (hnew.symm.trans h)
          exact Or.inr ⟨rfl, hname.symm⟩
        · exact Or.inl (hold.symm.trans h)
      · exact Or.inl h

/-- Whatever requests reach a node, from whomever and with whatever bytes: every body in its
store can be decoded and stands under the name of its record, no record is lost or replaced
by one that is not newer, and a record that was not there before was pushed as a whole. -/
theorem requests_only_renew (hst : WellStored gob st) (reqs : List Request) :
    WellStored gob (serveAll gob st reqs) ∧ ∀ name,
      Renewed ((decodeStore gob st).lookup name)
        ((decodeStore gob (serveAll gob st reqs)).lookup name) ∧
      ∀ r, (decodeStore gob (serveAll gob st reqs)).lookup name = some r →
        (decodeStore gob st).lookup name = some r ∨
          name = storeKey r.kind r.key ∧ ∃ req ∈ reqs, pushedBy gob req = some r := by
  induction reqs generalizing st with
  | nil => exact ⟨hst, fun name => ⟨Or.inl rfl, fun r hr => Or.inl hr⟩⟩
  | cons req reqs ih =>
      obtain ⟨hwell, hrest⟩ := ih (hst.serve req)
      refine ⟨hwell, fun name => ⟨(renewed_serve req name).trans (hrest name).1, fun r hr => ?_⟩⟩
      rcases (hrest name).2 r hr with hbefore | ⟨hname, later, hlater, hpushed⟩
      · rcases origin_of_serve hbefore with hold | ⟨hpushed, hname⟩
        · exact Or.inl hold
        · exact Or.inr ⟨hname, req, List.mem_cons_self, hpushed⟩
      · exact Or.inr ⟨hname, later, List.mem_cons_of_mem req hlater, hpushed⟩

/-- A toy codec: a record is its first version number. -/
def sampleGob : Gob where
  decodeRecord raw :=
    match raw with
    | [v] => some (sampleRecord (Int.ofNat v.toNat))
    | _ => none
  encodeStrings := List.flatten
  decodeStrings raw := some [raw]

/-- An older record, one that cannot be decoded, a newer one, and a request that pushes nothing. -/
def sampleRequests : List Request :=
  [⟨.put, putPath, [100]⟩, ⟨.put, putPath, [1, 2]⟩, ⟨.put, putPath, [200]⟩,
    ⟨.put, ascii "/v1//records", [250]⟩, ⟨.put, putPath, [150]⟩, ⟨.get, putPath, [250]⟩]

theorem requests_only_renew_sample :
    WellStored sampleGob (serveAll sampleGob ∅ sampleRequests) ∧
      (decodeStore sampleGob (serveAll sampleGob ∅ sampleRequests)).lookup
        (storeKey (ascii "k") (ascii "a")) = some (sampleRecord 200) :=
  ⟨(requests_only_renew wellStored_empty sampleRequests).1, by decide +kernel⟩

end Runs

end Lbsync.Wan
