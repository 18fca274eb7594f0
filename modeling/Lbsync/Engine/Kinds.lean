import Lbsync.Engine.Merges
import Lbsync.Engine.Moves
import Lbsync.Lib.Slices

/-!
# Calls stay within their kind

A tick makes calls for the kind of its provider only. On a backend that keeps the kinds apart
its calls, one by one and as a whole, read and change what belongs to this kind.
-/

namespace Lbsync.Engine

open Slices

variable {K κ : Type*} {S : κ → Type*}

/-- Each call of the backend for one of the kinds reads and changes what belongs to its kind
only. -/
structure PerKind (name : κ → GoString) (slice : ∀ k, K → S k) (cl : ClusterKV K) : Prop where
  get : ∀ k key, Confined slice k (cl.get (name k) key)
  put : ∀ k r, r.kind = name k → Confined slice k (cl.put r)
  keys : ∀ k, Confined slice k (cl.keys (name k))
  lock : ∀ k key, Confined slice k (cl.lock (name k) key)
  release : ∀ k key, Confined slice k fun s => ((), cl.release (name k) key s)

/-- Release the lock if it was taken. -/
def releaseTaken (cl : ClusterKV K) (kind key : GoString) (locked : Except Err Unit) (s : K) : K :=
  match locked with
  | .ok _ => cl.release kind key s
  | .error _ => s

namespace PerKind

variable {name : κ → GoString} {slice : ∀ k, K → S k} {cl : ClusterKV K} {k : κ} {P : Type*}
  {p : Provider P}

theorem maybePublish (h : PerKind name slice cl) (key : GoString) {own : Option Record}
    (hown : ∀ l, own = some l → l.kind = name k) (clusterR : Option Record) :
    Confined slice k fun s => ((), maybePublish cl (name k) key own clusterR s) := by
  cases own with
  | none => exact .pure slice k ()
  | some l =>
      by_cases hkeeps : keeps l clusterR = true
      · simp only [Engine.maybePublish, if_pos hkeeps]
        exact .pure slice k ()
      · -- The re-check decides about the write, the lock about the release.
        have hwritten (cur : Except Err (Option Record)) : Confined slice k fun s =>
            ((), if keeps l (gotRecord cur) then s else (cl.put l s).2) := by
          by_cases hcur : keeps l (gotRecord cur) = true
          · simp only [if_pos hcur]
            exact .pure slice k ()
          · simp only [if_neg hcur]
            exact (h.put k l (hown l rfl)).map fun _ => ()
        have hreleased (locked : Except Err Unit) : Confined slice k fun s =>
            ((), releaseTaken cl (name k) key locked s) := by
          cases locked with
          | ok _ => exact h.release k key
          | error _ => exact .pure slice k ()
        simp only [Engine.maybePublish, if_neg hkeeps]
        exact (h.lock k key).bind fun locked => (h.get k key).bind fun cur =>
          (hwritten cur).bind fun _ => hreleased locked

/-- What a visit hands on besides the cluster. -/
abbrev Carried (P : Type*) := P × List GoString × List (GoString × Record)

/-- The body of the loop as an operation on the cluster. -/
def visit (cl : ClusterKV K) (p : Provider P) (m : LocalMap) (b : Carried P) (key : GoString)
    (s : K) : Carried P × K :=
  let st := processKey cl p m ⟨s, b.1, b.2.1, b.2.2⟩ key
  ((st.provider, st.changed, st.calls), st.cluster)

theorem visit_confined (h : PerKind name slice cl) (hk : p.kind = name k) {m : LocalMap}
    (hm : OfKind p.kind m) (b : Carried P) (key : GoString) :
    Confined slice k (visit cl p m b key) := by
  rw [hk] at hm
  unfold visit processKey
  rw [hk]
  exact (h.get k key).bind fun read =>
    (h.maybePublish key (fun l hl => (hm key l hl).2) (gotRecord read)).map fun _ =>
      let calls := bestCall key (m.lookup key) (gotRecord read)
      let applied := calls.foldl (applyCall p) (b.1, b.2.1)
      (applied.1, applied.2, b.2.2 ++ calls)

theorem foldl_processKey (m : LocalMap) (keys : List GoString) (b : Carried P) (s : K) :
    let last := keys.foldl (fun x key => visit cl p m x.1 key x.2) (b, s)
    keys.foldl (processKey cl p m) ⟨s, b.1, b.2.1, b.2.2⟩ =
      ⟨last.2, last.1.1, last.1.2.1, last.1.2.2⟩ := by
  induction keys generalizing b s with
  | nil => rfl
  | cons key keys ih => exact ih (visit cl p m b key s).1 (visit cl p m b key s).2

/-- The loop of a tick reads and changes what belongs to its kind only. -/
theorem tickLoop (h : PerKind name slice cl) (hk : p.kind = name k) (ord : MapOrder) (w : P) :
    Confined slice k fun s =>
      (((tickLoop cl p ord s w).provider, (tickLoop cl p ord s w).changed,
        (tickLoop cl p ord s w).calls), (tickLoop cl p ord s w).cluster) := by
  have hloop := (h.keys k).bind fun known =>
    Confined.foldl (h.visit_confined hk (p.ofKind_locals w))
      (unionKeys ord (localMap (p.locals w).1) known) ((p.locals w).2, [], [])
  simp only [Engine.tickLoop, foldl_processKey (b := ((p.locals w).2, [], [])), hk]
  exact hloop

/-- A tick reads and changes what belongs to its kind only. -/
theorem tickProvider (h : PerKind name slice cl) (hk : p.kind = name k) (ord : MapOrder) (w : P) :
    Confined slice k fun s => ((tickProvider cl p ord s w).2, (tickProvider cl p ord s w).1) :=
  (h.tickLoop hk ord w).map fun b => finishTick p b.2.1 b.1

/-- The next call of a tick as an operation on the cluster: the control point and the provider's
state after it. -/
def call (cl : ClusterKV K) (p : Provider P) (pc : Pc) (w : P) (s : K) : Option (Pc × P) × K :=
  match Solo.step cl p ⟨pc, s, w⟩ with
  | some r => (some (r.pc, r.provider), r.cluster)
  | none => (none, s)

/-- The next call of a tick reads and changes what belongs to its kind only. -/
theorem call_confined (h : PerKind name slice cl) (hk : p.kind = name k) {pc : Pc}
    (hput : ∀ l, putAt pc = some l → l.kind = p.kind) (w : P) :
    Confined slice k (call cl p pc w) := by
  have hget (key : GoString) : Confined slice k (cl.get p.kind key) := hk ▸ h.get k key
  have hlock (key : GoString) : Confined slice k (cl.lock p.kind key) := hk ▸ h.lock k key
  have hrelease (key : GoString) : Confined slice k fun s => ((), cl.release p.kind key s) :=
    hk ▸ h.release k key
  cases pc with
  | idle => exact .pure slice k none
  | get f key => exact (hget key).map fun c => some (f.afterGet key (gotRecord c), w)
  | lock f key l c =>
      exact (hlock key).map fun r => some (Pc.recheck f key l c (lockTaken r), w)
  | recheck f key l c locked =>
      exact (hget key).map fun cur => some (f.afterRecheck key l c locked (gotRecord cur), w)
  | put f key l c locked =>
      exact (h.put k l ((hput l rfl).trans hk)).map fun _ => some (f.afterPut key l c locked, w)
  | release f key l c => exact (hrelease key).map fun _ => some (f.decided key c, w)
  | apply f key best =>
      exact .pure slice k (some (f.afterApply key (p.apply best w).1, (p.apply best w).2))
  | flush f => exact .pure slice k (some (f.afterFlush (p.flush w).1, (p.flush w).2))
  | rollback f => exact .pure slice k (some (Pc.idle, (p.rollback f.changed w).2))

section Step

variable (h : PerKind name slice cl) (hk : p.kind = name k) {pc : Pc}
  (hput : ∀ l, putAt pc = some l → l.kind = p.kind) {w : P} {s : K} {r : Solo K P}
  (hstep : Solo.step cl p ⟨pc, s, w⟩ = some r)

include h hk hput hstep

theorem step_congr {s' : K} (hs : slice k s = slice k s') :
    ∃ c, Solo.step cl p ⟨pc, s', w⟩ = some ⟨r.pc, c, r.provider⟩ ∧
      slice k r.cluster = slice k c := by
  have hcall : call cl p pc w s = (some (r.pc, r.provider), r.cluster) := by rw [call, hstep]
  have hresult := (h.call_confined hk hput w).result hs
  have hown := (h.call_confined hk hput w).own hs
  rw [hcall] at hresult hown
  unfold call at hresult hown
  cases hstep' : Solo.step cl p ⟨pc, s', w⟩ with
  | none => simp [hstep'] at hresult
  | some r' =>
      rw [hstep'] at hresult hown
      obtain ⟨hpc, hprovider⟩ := Prod.mk.inj (Option.some.inj hresult)
      refine ⟨r'.cluster, ?_, hown⟩
      rw [hpc, hprovider]

theorem step_other {j : κ} (hj : j ≠ k) : slice j r.cluster = slice j s := by
  have hcall : call cl p pc w s = (some (r.pc, r.provider), r.cluster) := by rw [call, hstep]
  have hother := (h.call_confined hk hput w).other hj s
  rwa [hcall] at hother

end Step

end PerKind

end Lbsync.Engine
