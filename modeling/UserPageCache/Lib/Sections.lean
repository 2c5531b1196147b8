import UserPageCache.Lib.Spin

-- Calls that run statement by statement between taking a lock and releasing it, by any number
-- of threads.
namespace Sections

open Spin (Word)

variable {τ κ π ρ ω σ α : Type*}

-- A statement changes the memory and goes on to another one, or ends its section with a reply.
structure Code (κ π ρ σ : Type*) where
  enter : κ → π
  step : π → σ → σ × (π ⊕ ρ)

inductive Runs (C : Code κ π ρ σ) : π → σ → σ → ρ → Prop
  | last {p : π} {m m' : σ} {r : ρ} : C.step p m = (m', .inr r) → Runs C p m m' r
  | next {p q : π} {m m₁ m' : σ} {r : ρ} : C.step p m = (m₁, .inl q) → Runs C q m₁ m' r →
      Runs C p m m' r

section Alone

variable {C : Code κ π ρ σ} {p q : π} {m m₁ m' : σ} {r r' : ρ}

theorem runs_of_next (h : C.step p m = (m₁, .inl q)) : Runs C p m m' r ↔ Runs C q m₁ m' r := by
  constructor
  · intro hr
    cases hr with
    | last h' => simp [h] at h'
    | next h' hrest =>
        rw [h, Prod.mk.injEq, Sum.inl.injEq] at h'
        obtain ⟨rfl, rfl⟩ := h'
        exact hrest
  · exact .next h

theorem runs_of_last (h : C.step p m = (m₁, .inr r')) : Runs C p m m' r ↔ m' = m₁ ∧ r = r' := by
  constructor
  · intro hr
    cases hr with
    | last h' =>
        rw [h, Prod.mk.injEq, Sum.inr.injEq] at h'
        exact ⟨h'.1.symm, h'.2.symm⟩
    | next h' => simp [h] at h'
  · rintro ⟨rfl, rfl⟩
    exact .last h

end Alone

inductive Phase (κ π ρ : Type*) where
  | idle
  | spinning (k : κ)
  | inside (k : κ) (p : π)
  | leaving (k : κ) (r : ρ)

-- Past the lock and not yet past its release.
def Phase.Busy : Phase κ π ρ → Prop
  | .idle => False
  | .spinning _ => False
  | .inside _ _ => True
  | .leaving _ _ => True

-- The calls that have returned are logged in the order in which they gave the lock back.
structure Config (τ κ π ρ ω σ : Type*) where
  phase : τ → Phase κ π ρ
  word : ω
  mem : σ
  log : List (τ × κ × ρ)

inductive Move (τ κ : Type*) where
  | call (i : τ) (k : κ)
  | step (i : τ)

namespace Config

variable [DecidableEq τ] (W : Word ω) (C : Code κ π ρ σ)

def enabled (c : Config τ κ π ρ ω σ) : Move τ κ → Prop
  | .call i _ => match c.phase i with
    | .idle => True
    | _ => False
  | .step i => match c.phase i with
    | .idle => False
    | _ => True

-- One attempt, one statement or one release.
def act (c : Config τ κ π ρ ω σ) : Move τ κ → Config τ κ π ρ ω σ
  | .call i k => { c with phase := Function.update c.phase i (.spinning k) }
  | .step i => match c.phase i with
    | .idle => c
    | .spinning k => { c with
      word := (W.trylock c.word).1
      phase := if (W.trylock c.word).2 then Function.update c.phase i (.inside k (C.enter k))
        else c.phase }
    | .inside k p => match C.step p c.mem with
      | (m, .inl q) => { c with mem := m, phase := Function.update c.phase i (.inside k q) }
      | (m, .inr r) => { c with mem := m, phase := Function.update c.phase i (.leaving k r) }
    | .leaving k r => { c with
      word := W.unlock c.word
      phase := Function.update c.phase i .idle
      log := c.log ++ [(i, k, r)] }

end Config

def threads [DecidableEq τ] (W : Word ω) (C : Code κ π ρ σ) (m₀ : σ) :
    System (Config τ κ π ρ ω σ) (Move τ κ) Empty where
  start c := c.phase = (fun _ => .idle) ∧ W.taken c.word = false ∧ c.mem = m₀ ∧ c.log = []
  enabled a c := c.enabled a
  act a c := .ok (c.act W C a)

-- What the sections are for: each call is one operation on an abstract value.
structure Implements (C : Code κ π ρ σ) (apply : κ → α → α × ρ) (R : σ → α → Prop) : Prop where
  run : ∀ {m a} (k : κ), R m a →
    ∃ m', Runs C (C.enter k) m m' (apply k a).2 ∧ R m' (apply k a).1

-- The logged calls, made one after the other, give these replies.
inductive Legal (apply : κ → α → α × ρ) (a₀ : α) : List (τ × κ × ρ) → α → Prop
  | nil : Legal apply a₀ [] a₀
  | snoc {log : List (τ × κ × ρ)} {a : α} (i : τ) (k : κ) : Legal apply a₀ log a →
      Legal apply a₀ (log ++ [(i, k, (apply k a).2)]) (apply k a).1

-- The value is the one that the logged calls leave. Whoever is inside makes its call the next.
structure Linear (W : Word ω) (C : Code κ π ρ σ) (apply : κ → α → α × ρ) (R : σ → α → Prop)
    (a₀ : α) (c : Config τ κ π ρ ω σ) (a : α) : Prop where
  alone : ∀ i j, (c.phase i).Busy → (c.phase j).Busy → i = j
  taken : W.taken c.word = true ↔ ∃ i, (c.phase i).Busy
  legal : Legal apply a₀ c.log a
  free : (∀ i, ¬(c.phase i).Busy) → R c.mem a
  inside : ∀ i k p, c.phase i = .inside k p →
    ∃ m', Runs C p c.mem m' (apply k a).2 ∧ R m' (apply k a).1
  leaving : ∀ i k r, c.phase i = .leaving k r → r = (apply k a).2 ∧ R c.mem (apply k a).1

section Steps

variable {W : Word ω} {C : Code κ π ρ σ} {apply : κ → α → α × ρ} {R : σ → α → Prop}
  {a₀ a : α} {c : Config τ κ π ρ ω σ} {i j : τ} {k : κ}

-- A thread that spins in vain does so while another one is inside, whose own statements come
-- to an end.
theorem Linear.progress (h : Linear W C apply R a₀ c a) (hi : c.phase i = .spinning k)
    (ht : (W.trylock c.word).2 = false) : ∃ j, j ≠ i ∧
      ((∃ k p, c.phase j = .inside k p ∧ ∃ m' r, Runs C p c.mem m' r) ∨
        ∃ k r, c.phase j = .leaving k r) := by
  have htaken : W.taken c.word = true := by
    by_contra hfree
    have hgot := (W.trylock_free _ (Bool.not_eq_true _ ▸ hfree)).1
    simp [ht] at hgot
  obtain ⟨j, hj⟩ := h.taken.mp htaken
  have hne : j ≠ i := by
    rintro rfl
    rw [hi] at hj
    exact hj
  refine ⟨j, hne, ?_⟩
  cases hp : c.phase j with
  | idle => simp [hp, Phase.Busy] at hj
  | spinning k => simp [hp, Phase.Busy] at hj
  | inside k p =>
      obtain ⟨m', hruns, -⟩ := h.inside j k p hp
      exact .inl ⟨k, p, rfl, m', _, hruns⟩
  | leaving k r => exact .inr ⟨k, r, rfl⟩

variable [DecidableEq τ]

theorem busy_update {phase : τ → Phase κ π ρ} {p : Phase κ π ρ} :
    (Function.update phase i p j).Busy ↔ if j = i then p.Busy else (phase j).Busy := by
  by_cases hj : j = i <;> simp [hj]

-- A thread that was not inside and is not inside now changes nothing for the others.
theorem Linear.outside (h : Linear W C apply R a₀ c a) {p : Phase κ π ρ} (hi : ¬(c.phase i).Busy)
    (hp : ¬p.Busy) :
    Linear W C apply R a₀ { c with phase := Function.update c.phase i p } a := by
  have hbusy : ∀ j, (Function.update c.phase i p j).Busy ↔ (c.phase j).Busy := fun j => by
    rw [busy_update]
    by_cases hj : j = i
    · subst j
      simp [hi, hp]
    · simp [hj]
  have hphase : ∀ j, (Function.update c.phase i p j).Busy →
      Function.update c.phase i p j = c.phase j := fun j hj => by
    have hne : j ≠ i := by
      rintro rfl
      exact hi ((hbusy j).mp hj)
    exact Function.update_of_ne hne ..
  refine ⟨fun j l hj hl => h.alone j l ((hbusy j).mp hj) ((hbusy l).mp hl), ?_, h.legal,
    fun hn => h.free fun j hj => hn j ((hbusy j).mpr hj), fun j k q hj => ?_, fun j k r hj => ?_⟩
  · simp only [hbusy]
    exact h.taken
  · exact h.inside j k q ((hphase j (by simp only at hj; rw [hj]; trivial)).symm.trans hj)
  · exact h.leaving j k r ((hphase j (by simp only at hj; rw [hj]; trivial)).symm.trans hj)

-- The only thread inside goes on to another phase.
theorem Linear.only (h : Linear W C apply R a₀ c a) (p : Phase κ π ρ)
    (hi : (c.phase i).Busy ∨ ∀ j, ¬(c.phase j).Busy) {w : ω} {m : σ} (hb : p.Busy) (hw : W.taken w = true)
    (hin : ∀ k q, p = .inside k q → ∃ m', Runs C q m m' (apply k a).2 ∧ R m' (apply k a).1)
    (hout : ∀ k r, p = .leaving k r → r = (apply k a).2 ∧ R m (apply k a).1) :
    Linear W C apply R a₀ ⟨Function.update c.phase i p, w, m, c.log⟩ a := by
  have hothers : ∀ j ≠ i, ¬(c.phase j).Busy := fun j hj hbusy =>
    hi.elim (fun h' => hj (h.alone j i hbusy h')) fun h' => h' j hbusy
  have hbusy : ∀ j, (Function.update c.phase i p j).Busy ↔ j = i := fun j => by
    rw [busy_update]
    by_cases hj : j = i
    · simp [hj, hb]
    · simp [hj, hothers j hj]
  refine ⟨fun j l hj hl => ((hbusy j).mp hj).trans ((hbusy l).mp hl).symm, ?_, h.legal,
    fun hn => absurd ((hbusy i).mpr rfl) (hn i), fun j k q hj => ?_, fun j k r hj => ?_⟩
  · simp only [hbusy, exists_eq, iff_true]
    exact hw
  · simp only at hj
    obtain rfl : j = i := (hbusy j).mp (by rw [hj]; trivial)
    exact hin k q (by simpa using hj)
  · simp only at hj
    obtain rfl : j = i := (hbusy j).mp (by rw [hj]; trivial)
    exact hout k r (by simpa using hj)

theorem Linear.release (h : Linear W C apply R a₀ c a) {r : ρ} (hi : c.phase i = .leaving k r) :
    Linear W C apply R a₀ ⟨Function.update c.phase i .idle, W.unlock c.word, c.mem,
      c.log ++ [(i, k, r)]⟩ (apply k a).1 := by
  obtain ⟨rfl, hr⟩ := h.leaving i k r hi
  have hidle : ∀ j, ¬(Function.update c.phase i .idle j).Busy := fun j => by
    rw [busy_update]
    by_cases hj : j = i
    · simp [hj, Phase.Busy]
    · simp only [hj, ite_false]
      exact fun hb => hj (h.alone j i hb (by rw [hi]; trivial))
  refine ⟨fun j _ hj => absurd hj (hidle j), ?_, h.legal.snoc i k, fun _ => hr,
    fun j k q hj => ?_, fun j k r hj => ?_⟩
  · simp only [W.taken_unlock, Bool.false_eq_true, false_iff, not_exists]
    exact hidle
  · exact absurd (by simp only at hj; rw [hj]; trivial) (hidle j)
  · exact absurd (by simp only at hj; rw [hj]; trivial) (hidle j)

theorem Linear.step (h : Linear W C apply R a₀ c a) (hI : Implements C apply R)
    (he : c.enabled (.step i)) : ∃ a', Linear W C apply R a₀ (c.act W C (.step i)) a' := by
  cases hi : c.phase i with
  | idle => simp [Config.enabled, hi] at he
  | spinning k =>
      simp only [Config.act, hi]
      cases ht : W.taken c.word with
      | true =>
          rw [W.trylock_taken _ ht]
          exact ⟨a, h⟩
      | false =>
          obtain ⟨hgot, htaken⟩ := W.trylock_free _ ht
          have hnone : ∀ j, ¬(c.phase j).Busy := fun j hj => by
            rw [h.taken.mpr ⟨j, hj⟩] at ht
            cases ht
          simp only [hgot, ite_true]
          refine ⟨a, h.only (.inside k (C.enter k)) (.inr hnone) trivial htaken
            (fun k' q hq => ?_) (by simp)⟩
          obtain ⟨rfl, rfl⟩ := Phase.inside.inj hq
          exact hI.run k (h.free hnone)
  | inside k p =>
      have hbusy : (c.phase i).Busy := by rw [hi]; trivial
      have htaken := h.taken.mpr ⟨i, hbusy⟩
      obtain ⟨m', hruns, hr⟩ := h.inside i k p hi
      simp only [Config.act, hi]
      generalize hs : C.step p c.mem = next
      obtain ⟨m, q | r⟩ := next
      · refine ⟨a, h.only (.inside k q) (.inl hbusy) trivial htaken (fun k' q' hq => ?_) (by simp)⟩
        obtain ⟨rfl, rfl⟩ := Phase.inside.inj hq
        exact ⟨m', (runs_of_next hs).mp hruns, hr⟩
      · refine ⟨a, h.only (.leaving k r) (.inl hbusy) trivial htaken (by simp) fun k' r' hq => ?_⟩
        obtain ⟨rfl, rfl⟩ := Phase.leaving.inj hq
        obtain ⟨rfl, hreply⟩ := (runs_of_last hs).mp hruns
        exact ⟨hreply.symm, hr⟩
  | leaving k r =>
      simp only [Config.act, hi]
      exact ⟨_, h.release hi⟩

theorem linear_of_reachable {m₀ : σ} (hI : Implements C apply R) (hr : R m₀ a₀)
    (h : (threads W C m₀).Reachable System.Always c) : ∃ a, Linear W C apply R a₀ c a := by
  refine h.invariant (I := fun c => ∃ a, Linear W C apply R a₀ c a) (fun c hc => ?_)
    (fun c c' x hc he _ hact => ?_)
  · obtain ⟨hphase, hword, hmem, hlog⟩ := hc
    have hidle : ∀ i, c.phase i = .idle := fun i => congrFun hphase i
    refine ⟨a₀, by simp [hidle, Phase.Busy], by simp [hidle, Phase.Busy, hword], hlog ▸ .nil,
      fun _ => hmem ▸ hr, by simp [hidle], by simp [hidle]⟩
  · obtain ⟨a, hc⟩ := hc
    obtain rfl := Except.ok.inj hact
    cases x with
    | call i k =>
        refine ⟨a, hc.outside (fun hb => ?_) id⟩
        cases hi : c.phase i <;> simp [threads, Config.enabled, hi, Phase.Busy] at he hb
    | step i => exact hc.step hI he

end Steps

end Sections
