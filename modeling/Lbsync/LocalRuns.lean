import Lbsync.Engine.Local
import Lbsync.Olric.Outcomes
import Lbsync.Wan.Restarts

/-!
# What a node sees of a run

Every run of either backend is, for each of its nodes, a run of that node alone with arbitrary
replies. So what holds of a node whatever is replied holds on both backends, whatever fails and
however the nodes take turns.
-/

namespace Lbsync.Olric

open Engine

variable {N P : Type*}

/-- A provider's state that is changed from outside is as it should be. -/
def Changes (I : N → P → Prop) : Action N P → Prop
  | .change n w => I n w
  | _ => True

/-- The action changes a provider's state from outside. -/
def Action.isChange : Action N P → Bool
  | .change _ _ => true
  | _ => false

variable {p : N → Provider P} {I : N → P → Prop}

/-- Without changes from outside there is nothing to ask of them. -/
theorem Changes.of_not_isChange {a : Action N P} (h : a.isChange = false) : Changes I a := by
  cases a with
  | change n w => cases h
  | _ => trivial

variable [DecidableEq N]

/-- A step on a cluster is for each node a step of its own, or does not show. -/
theorem local_step {s t : Nodes N P} {a : Action N P} (ha : Changes I a)
    (h : Nodes.step p s a = some t) (n : N) :
    (t.pc n, t.world n) = (s.pc n, s.world n) ∨ ∃ b : LocalAct P, b.Respects (I n) ∧
      localStep (p n) (s.pc n, s.world n) b = some (t.pc n, t.world n) := by
  cases nodeStep_of_step h n with
  | other hcall hpc hworld => exact .inl (by rw [hpc, hworld])
  | change hpc hworld => exact .inr ⟨.change _, ha, by rw [hpc, hworld]; rfl⟩
  | @begin ord hidle hpc hworld =>
      refine .inr ⟨.begin (unionKeys ord (localMap ((p n).locals (s.world n)).1)
        ((kv n).keys (p n).kind s.cluster).1), trivial, ?_⟩
      rw [hpc, hworld, localStep, hidle]
  | call hcall hpc hworld hcluster =>
      obtain ⟨reply, hreply⟩ := exists_reply hcall
      exact .inr ⟨.call reply, trivial, by rw [hpc, hworld]; exact hreply⟩

/-- Each node takes part in a run on a cluster by itself. -/
theorem local_run {s t : Nodes N P}
    (h : Runs.Run (Nodes.step p) (fun _ a => Changes I a) s t) (n : N) :
    Runs.Run (localStep (p n)) (fun _ a => a.Respects (I n)) (s.pc n, s.world n)
      (t.pc n, t.world n) :=
  h.project (fun s => (s.pc n, s.world n)) fun _ _ _ ha hstep => local_step ha hstep n

end Lbsync.Olric

namespace Lbsync.Wan

open Engine

variable {N P : Type*}

/-- A provider's state that is changed from outside, or found after a restart, is as it should
be. -/
def Changes (I : N → P → Prop) : Event N P → Prop
  | .act (.change n w) => I n w
  | .restart n w => I n w
  | _ => True

/-- A read leaves the provider alone. It goes on with an answer, or goes on asking. -/
theorem View.read_cases (peers : List N) (n : N) (kind key : GoString) (answers : Bool)
    (v : View N P) :
    (v.read peers n kind key answers).provider = v.provider ∧
      ((v.read peers n kind key answers).pc = v.pc ∨
        ∃ c, (v.read peers n kind key answers).pc = answer c v.pc) := by
  unfold View.read
  cases v.asking with
  | none =>
      cases v.net.stored n kind key with
      | none => exact ⟨rfl, .inl rfl⟩
      | some r => exact ⟨rfl, .inr ⟨some r, rfl⟩⟩
  | some asking =>
      cases asking with
      | nil => exact ⟨rfl, .inr ⟨none, rfl⟩⟩
      | cons q rest =>
          simp only
          split
          · exact ⟨rfl, .inr ⟨_, rfl⟩⟩
          · exact ⟨rfl, .inl rfl⟩

variable [DecidableEq N] {peers : N → List N} {p : N → Provider P} {I : N → P → Prop}

theorem View.local_step {q : Provider P} {n : N} {v w : View N P} {answers : Bool}
    (h : View.step peers q n v answers = some w) :
    (w.pc, w.provider) = (v.pc, v.provider) ∨
      ∃ reply, localStep q (v.pc, v.provider) (.call reply) = some (w.pc, w.provider) := by
  unfold View.step at h
  cases hread : readKey v.pc with
  | none =>
      simp only [hread] at h
      obtain ⟨r, hr, rfl⟩ := Option.map_eq_some_iff.mp h
      exact .inr (exists_reply hr)
  | some key =>
      simp only [hread, Option.some.injEq] at h
      subst h
      obtain ⟨hprovider, hpc | ⟨c, hpc⟩⟩ := v.read_cases (peers n) n q.kind key answers
      · exact .inl (by rw [hpc, hprovider])
      · refine .inr ⟨⟨c, false, false⟩, ?_⟩
        rw [hpc, hprovider]
        obtain ⟨net, pc, asking, provider⟩ := v
        cases reading_of_readKey hread <;> rfl

/-- A step of the network is for each node a step of its own, or does not show. -/
theorem local_step {s t : Nodes N P} {e : Event N P} (he : Changes I e)
    (hstep : Nodes.next peers p s e = some t) (n : N) :
    (t.pc n, t.world n) = (s.pc n, s.world n) ∨ ∃ b : LocalAct P, b.Respects (I n) ∧
      localStep (p n) (s.pc n, s.world n) b = some (t.pc n, t.world n) := by
  -- A step of another node does not show.
  have hother {m : N} (hm : n ≠ m) (pc : Pc) (w : P) :
      (Function.update s.pc m pc n, Function.update s.world m w n) = (s.pc n, s.world n) := by
    rw [Function.update_of_ne hm, Function.update_of_ne hm]
  cases e with
  | restart m w =>
      obtain rfl := Option.some.inj hstep
      by_cases hm : n = m
      · subst hm
        exact .inr ⟨.restart w, he, by simp [localStep, Nodes.restart]⟩
      · exact .inl (hother hm .idle w)
  | act a =>
      cases a with
      | begin m ord known =>
          cases hpc : s.pc m with
          | idle =>
              simp only [Nodes.next, Nodes.step, hpc, Option.some.injEq] at hstep
              subst hstep
              by_cases hm : n = m
              · subst hm
                refine .inr ⟨.begin (unionKeys ord (s.locals p n) (.ok known)), trivial, ?_⟩
                simp [localStep, hpc, Nodes.locals]
              · exact .inl (hother hm _ _)
          | _ => simp [Nodes.next, Nodes.step, hpc] at hstep
      | call m answers =>
          simp only [Nodes.next, Nodes.step, Option.map_eq_some_iff] at hstep
          obtain ⟨v, hv, rfl⟩ := hstep
          by_cases hm : n = m
          · subst hm
            rcases View.local_step hv with hsame | ⟨reply, hreply⟩
            · exact .inl (by simpa using hsame)
            · exact .inr ⟨.call reply, trivial, by simpa using hreply⟩
          · exact .inl (hother hm v.pc v.provider)
      | change m w =>
          obtain rfl := Option.some.inj hstep
          by_cases hm : n = m
          · subst hm
            exact .inr ⟨.change w, he, by simp [localStep]⟩
          · exact .inl (by simp [hm])
      | _ =>
          simp only [Nodes.next, Nodes.step] at hstep
          split_ifs at hstep
          obtain rfl := Option.some.inj hstep
          exact .inl rfl

/-- Each node takes part in a run of the network by itself. -/
theorem local_run {s t : Nodes N P}
    (h : Runs.Run (Nodes.next peers p) (fun _ e => Changes I e) s t) (n : N) :
    Runs.Run (localStep (p n)) (fun _ a => a.Respects (I n)) (s.pc n, s.world n)
      (t.pc n, t.world n) :=
  h.project (fun s => (s.pc n, s.world n)) fun _ _ _ he hstep => local_step he hstep n

end Lbsync.Wan
