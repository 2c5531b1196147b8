import UserPageCache.Lib.System
import Mathlib.Data.List.Basic

-- A transition system that keeps the events of its steps, the newest last.
namespace System

structure Journal (σ ω : Type*) where
  state : σ
  log : List ω

variable {σ α ε ω κ : Type*} {S : System σ α ε} {allowed : α → σ → Prop}
  {events : α → σ → σ → List ω}

def journaling (S : System σ α ε) (events : α → σ → σ → List ω) : System (Journal σ ω) α ε where
  start r := S.start r.state ∧ r.log = []
  enabled a r := S.enabled a r.state
  act a r := (S.act a r.state).map fun s => ⟨s, r.log ++ events a r.state s⟩

instance journaling.decide [∀ a s, Decidable (S.enabled a s)] (a : α) (r : Journal σ ω) :
    Decidable ((S.journaling events).enabled a r) :=
  inferInstanceAs (Decidable (S.enabled a r.state))

theorem journaling_act {r r' : Journal σ ω} {a : α} (h : (S.journaling events).act a r = .ok r') :
    S.act a r.state = .ok r'.state ∧ r'.log = r.log ++ events a r.state r'.state := by
  change (S.act a r.state).map _ = _ at h
  cases hact : S.act a r.state with
  | error fault => simp [hact, Except.map] at h
  | ok s =>
      rw [hact] at h
      obtain rfl := Except.ok.inj h
      exact ⟨rfl, rfl⟩

-- Keeping a journal adds no state and takes none away.
theorem Reachable.of_journaling {r : Journal σ ω}
    (h : (S.journaling events).Reachable (fun a r => allowed a r.state) r) :
    S.Reachable allowed r.state := by
  induction h with
  | start hs => exact .start hs.1
  | step _ he ha hact ih => exact .step ih he ha (journaling_act hact).1

theorem Reachable.journaling {s : σ} (h : S.Reachable allowed s) :
    ∃ log, (S.journaling events).Reachable (fun a r => allowed a r.state) ⟨s, log⟩ := by
  induction h with
  | start hs => exact ⟨[], .start ⟨hs, rfl⟩⟩
  | @step s s' a _ he ha hact ih =>
      obtain ⟨log, hlog⟩ := ih
      refine ⟨log ++ events a s s', hlog.step he ha ?_⟩
      simp only [System.journaling, hact, Except.map]

-- What every step updates by its events is the journal folded.
theorem Reachable.folded (φ : σ → κ) {r : Journal σ ω} {update : κ → ω → κ} {initial : κ}
    (h : (S.journaling events).Reachable (fun a r => allowed a r.state) r)
    (hstart : ∀ s, S.start s → φ s = initial)
    (hstep : ∀ s s' a, S.Reachable allowed s → S.enabled a s → allowed a s → S.act a s = .ok s' →
      φ s' = (events a s s').foldl update (φ s)) : φ r.state = r.log.foldl update initial := by
  induction h with
  | start hs =>
      rw [hs.2]
      exact hstart _ hs.1
  | step h he ha hact ih =>
      obtain ⟨hact, hlog⟩ := journaling_act hact
      rw [hlog, List.foldl_append, ← ih]
      exact hstep _ _ _ h.of_journaling he ha hact

end System
