import Mathlib.Data.List.Basic

/-!
# Machines, runs, and the two induction rules

A `Step` is a labelled transition function: `none` says that the label is not possible in the state.
`Run` is the set of its runs whose every step meets a guard, so that "every run", "every run whose
steps all meet a condition", and the environment's assumptions are all one notion. A property of
every reachable state comes from `Run.invariant`, and one that also speaks of the past comes from
`Run.history`. A measure that every step lowers bounds the length of the runs
(`Run.length_add_le`), and one for each label bounds how often it is taken (`Run.count_add_le`).

A `Server` answers calls one after the other, or goes wrong. Two servers that are related by a
simulation give the same answers to every sequence of calls (`Server.Simulates.run_eq`), also when
only the calls that meet a guard are simulated (`Server.session_eq`).
-/

namespace CxxPandora.Lib

/-! ## Labelled transitions -/

/-- A labelled transition function; `none` when the label is not possible in the state. -/
abbrev Step (σ ε : Type*) := σ → ε → Option σ

section Run

variable {σ ε : Type*} {step : Step σ ε} {G H : σ → ε → Prop} {s₀ s s' : σ} {e : ε} {es fs : List ε}

/-- The runs from `s₀` whose every step meets the guard `G`, with the labels that they took. -/
inductive Run (step : Step σ ε) (G : σ → ε → Prop) (s₀ : σ) : List ε → σ → Prop
  | nil : Run step G s₀ [] s₀
  | snoc {es : List ε} {s s' : σ} {e : ε} : Run step G s₀ es s → G s e → step s e = some s' →
      Run step G s₀ (es ++ [e]) s'

/-- The guard that every step meets. -/
def anyStep (_ : σ) (_ : ε) : Prop := True

/-- A property of the labels taken and of the state that holds at the start, and that every step
of a guarded run keeps, holds at the end of every guarded run. -/
theorem Run.history {I : List ε → σ → Prop} (h₀ : I [] s₀)
    (hstep : ∀ es s e s', I es s → G s e → step s e = some s' → I (es ++ [e]) s')
    (h : Run step G s₀ es s) : I es s := by
  induction h with
  | nil => exact h₀
  | snoc _ hG hs ih => exact hstep _ _ _ _ ih hG hs

/-- A property of the state that holds at the start, and that every guarded step keeps, holds in
every reachable state. -/
theorem Run.invariant {I : σ → Prop} (h₀ : I s₀)
    (hstep : ∀ s e s', I s → G s e → step s e = some s' → I s') (h : Run step G s₀ es s) : I s :=
  h.history (I := fun _ s => I s) h₀ fun _ s e s' => hstep s e s'

/-- A run that meets a guard meets every weaker one. -/
theorem Run.mono (hGH : ∀ s e, G s e → H s e) (h : Run step G s₀ es s) : Run step H s₀ es s := by
  induction h with
  | nil => exact .nil
  | snoc _ hG hs ih => exact .snoc ih (hGH _ _ hG) hs

/-- Two runs, the second from where the first ends, make one. -/
theorem Run.append (h : Run step G s₀ es s) (h' : Run step G s fs s') :
    Run step G s₀ (es ++ fs) s' := by
  induction h' with
  | nil => rwa [List.append_nil]
  | snoc _ hG hs ih =>
    rw [← List.append_assoc]
    exact .snoc ih hG hs

/-- One step is a run. -/
theorem Run.single (hG : G s e) (hs : step s e = some s') : Run step G s [e] s' := by
  have h : Run step G s ([] ++ [e]) s' := .snoc .nil hG hs
  rwa [List.nil_append] at h

/-- A measure that every guarded step lowers, in the states that an invariant describes, bounds the
length of every guarded run. -/
theorem Run.guarded_length_add_le {I : σ → Prop} {μ : σ → ℕ} (h₀ : I s₀)
    (hI : ∀ s e s', I s → G s e → step s e = some s' → I s' ∧ μ s' < μ s)
    (h : Run step G s₀ es s) : I s ∧ es.length + μ s ≤ μ s₀ := by
  refine h.history (I := fun es s => I s ∧ es.length + μ s ≤ μ s₀)
    ⟨h₀, Nat.le_of_eq (Nat.zero_add _)⟩ ?_
  rintro es s e s' ⟨hs, hle⟩ hG hstep
  obtain ⟨hs', hlt⟩ := hI s e s' hs hG hstep
  refine ⟨hs', ?_⟩
  rw [List.length_append, List.length_singleton]
  omega

/-- A measure that every step lowers, in the states that an invariant describes, bounds the length
of every run. -/
theorem Run.length_add_le {I : σ → Prop} {μ : σ → ℕ} (h₀ : I s₀)
    (hI : ∀ s e s', I s → step s e = some s' → I s' ∧ μ s' < μ s)
    (h : Run step G s₀ es s) : es.length + μ s ≤ μ s₀ :=
  (h.guarded_length_add_le h₀ fun s e s' hs _ => hI s e s' hs).2

/-- A measure for each label, which a step with the label lowers and no other step raises, in the
states that an invariant describes, bounds how often the label is taken in a run. -/
theorem Run.count_add_le [DecidableEq ε] {I : σ → Prop} {μ : ε → σ → ℕ} (h₀ : I s₀)
    (hI : ∀ s e s', I s → step s e = some s' →
      I s' ∧ μ e s' < μ e s ∧ ∀ f, f ≠ e → μ f s' ≤ μ f s)
    (h : Run step G s₀ es s) (f : ε) : es.count f + μ f s ≤ μ f s₀ := by
  refine (h.history (I := fun es s => I s ∧ es.count f + μ f s ≤ μ f s₀)
    ⟨h₀, Nat.le_of_eq (Nat.zero_add _)⟩ ?_).2
  rintro es s e s' ⟨hs, hle⟩ - hstep
  obtain ⟨hs', hlt, hother⟩ := hI s e s' hs hstep
  refine ⟨hs', ?_⟩
  rw [List.count_append, List.count_singleton]
  by_cases hef : f = e
  · subst hef
    rw [if_pos (beq_self_eq_true f)]
    omega
  · have hle' := hother f hef
    rw [if_neg fun heq => hef (eq_of_beq heq).symm]
    omega

/-- When every step lowers a measure, some run cannot go on. -/
theorem Run.exists_stuck {I : σ → Prop} {μ : σ → ℕ} (h₀ : I s₀)
    (hI : ∀ s e s', I s → step s e = some s' → I s' ∧ μ s' < μ s) :
    ∃ es s, Run step anyStep s₀ es s ∧ ∀ e, step s e = none := by
  induction hμ : μ s₀ using Nat.strongRecOn generalizing s₀ with
  | ind n ih =>
    by_cases hstuck : ∀ e, step s₀ e = none
    · exact ⟨[], s₀, .nil, hstuck⟩
    · obtain ⟨e, he⟩ := not_forall.mp hstuck
      obtain ⟨s₁, hs₁⟩ := Option.ne_none_iff_exists'.mp he
      obtain ⟨h₁, hlt⟩ := hI s₀ e s₁ h₀ hs₁
      obtain ⟨es, s, hrun, hend⟩ := ih (μ s₁) (hμ ▸ hlt) h₁ rfl
      exact ⟨[e] ++ es, s, (Run.single trivial hs₁).append hrun, hend⟩

/-- The state that a list of labels leads to. -/
def exec (step : Step σ ε) : σ → List ε → Option σ
  | s, [] => some s
  | s, e :: es => (step s e).bind fun s' => exec step s' es

/-- An executed list of labels is a run. -/
theorem Run.of_exec (h : exec step s es = some s') : Run step anyStep s es s' := by
  induction es generalizing s with
  | nil =>
    have hs : s = s' := by simpa [exec] using h
    rw [hs]
    exact .nil
  | cons e es ih =>
    obtain ⟨t, ht, hes⟩ := Option.bind_eq_some_iff.mp h
    exact (Run.single trivial ht).append (ih hes)

/-- One more label is executed last. -/
theorem exec_snoc (s : σ) (es : List ε) (e : ε) :
    exec step s (es ++ [e]) = (exec step s es).bind fun s' => step s' e := by
  induction es generalizing s with
  | nil => simp [exec]
  | cons f es ih =>
    rw [List.cons_append, exec, exec, Option.bind_assoc]
    exact congrArg (Option.bind (step s f)) (funext ih)

/-- The labels of a run lead to where it ends. -/
theorem Run.exec_eq (h : Run step G s₀ es s) : exec step s₀ es = some s := by
  induction h with
  | nil => rfl
  | snoc _ _ hs ih =>
    rw [exec_snoc, ih]
    exact hs

/-- A label of a run was taken after a run that meets the guard, in a state in which it meets the
guard. -/
theorem Run.split (h : Run step G s₀ es s) {pre post : List ε} (hes : es = pre ++ e :: post) :
    ∃ t t', Run step G s₀ pre t ∧ G t e ∧ step t e = some t' := by
  induction h generalizing post with
  | nil => exact absurd hes (by simp)
  | @snoc es t t' f hrun hG hs ih =>
    rcases List.eq_nil_or_concat post with rfl | ⟨post', f', rfl⟩
    · -- It is the last one.
      obtain ⟨rfl, hfe⟩ := List.append_inj' hes rfl
      obtain rfl : f = e := List.singleton_inj.mp hfe
      exact ⟨t, t', hrun, hG, hs⟩
    · have hes' : es ++ [f] = (pre ++ e :: post') ++ [f'] := by simpa using hes
      exact ih (List.append_inj' hes' rfl).1

/-- The steps that meet a guard. -/
def restrict (step : Step σ ε) (G : σ → ε → Prop) [∀ s e, Decidable (G s e)] : Step σ ε :=
  fun s e => if G s e then step s e else none

/-- An executed list of labels that all meet a guard is a run that meets it. -/
theorem Run.of_exec_restrict [∀ s e, Decidable (G s e)]
    (h : exec (restrict step G) s es = some s') :
    Run step G s es s' := by
  induction es generalizing s with
  | nil =>
    have hs : s = s' := by simpa [exec] using h
    rw [hs]
    exact .nil
  | cons e es ih =>
    obtain ⟨t, ht, hes⟩ := Option.bind_eq_some_iff.mp h
    unfold restrict at ht
    split_ifs at ht with hG
    exact (Run.single hG ht).append (ih hes)

end Run

/-! ## Servers -/

/-- What answers a call and moves on, or goes wrong (`none`). -/
abbrev Server (σ ι ο : Type*) := σ → ι → Option (ο × σ)

section Server

variable {σ τ ι ο : Type*}

/-- The answers to a sequence of calls. -/
def Server.run (S : Server σ ι ο) : σ → List ι → Option (List ο)
  | _, [] => some []
  | s, i :: is => (S s i).bind fun p => (Server.run S p.2 is).map (p.1 :: ·)

/-- `R` is a simulation between the two servers: in related states both answer every call, they
answer it alike, and they stay related. -/
def Server.Simulates (S : Server σ ι ο) (T : Server τ ι ο) (R : σ → τ → Prop) : Prop :=
  ∀ s t i, R s t → ∃ o s' t', S s i = some (o, s') ∧ T t i = some (o, t') ∧ R s' t'

/-- Servers in related states give the same answers to every sequence of calls. -/
theorem Server.Simulates.run_eq {S : Server σ ι ο} {T : Server τ ι ο} {R : σ → τ → Prop}
    (h : Server.Simulates S T R) (is : List ι) {s : σ} {t : τ} (hst : R s t) :
    ∃ os, Server.run S s is = some os ∧ Server.run T t is = some os := by
  induction is generalizing s t with
  | nil => exact ⟨[], rfl, rfl⟩
  | cons i is ih =>
    obtain ⟨o, s', t', hs, ht, hst'⟩ := h s t i hst
    obtain ⟨os, hS, hT⟩ := ih hst'
    refine ⟨o :: os, ?_, ?_⟩
    · simp [Server.run, hs, hS]
    · simp [Server.run, ht, hT]

/-- The answers to a sequence of calls, and the state that it ends in. -/
def Server.session (S : Server σ ι ο) : σ → List ι → Option (List ο × σ)
  | s, [] => some ([], s)
  | s, i :: is => (S s i).bind fun p =>
    (Server.session S p.2 is).map fun q => (p.1 :: q.1, q.2)

/-- Every call meets a guard in the state in which it is made. -/
def Server.Guarded (S : Server σ ι ο) (G : σ → ι → Prop) : σ → List ι → Prop
  | _, [] => True
  | s, i :: is => G s i ∧ ∀ o s', S s i = some (o, s') → Server.Guarded S G s' is

/-- A guard that every call meets. -/
theorem Server.Guarded.of_forall {S : Server σ ι ο} {G : σ → ι → Prop} (h : ∀ s i, G s i)
    (is : List ι) (s : σ) : Server.Guarded S G s is := by
  induction is generalizing s with
  | nil => trivial
  | cons i is ih => exact ⟨h s i, fun _ s' _ => ih s'⟩

/-- A guard along with a property of the calls. -/
theorem Server.Guarded.and {S : Server σ ι ο} {G : σ → ι → Prop} {P : ι → Prop} {is : List ι}
    {s : σ} (hG : Server.Guarded S G s is) (hP : ∀ i ∈ is, P i) :
    Server.Guarded S (fun s i => G s i ∧ P i) s is := by
  induction is generalizing s with
  | nil => trivial
  | cons i is ih => exact ⟨⟨hG.1, hP i List.mem_cons_self⟩, fun o s' hs =>
      ih (hG.2 o s' hs) fun i' hi' => hP i' (List.mem_cons_of_mem i hi')⟩

/-- A guard of one call, and of those that follow it. -/
theorem Server.Guarded.cons {S : Server σ ι ο} {G : σ → ι → Prop} {is : List ι} {s s' : σ} {i : ι}
    {o : ο} (hi : G s i) (hs : S s i = some (o, s')) (h : Server.Guarded S G s' is) :
    Server.Guarded S G s (i :: is) := by
  refine ⟨hi, fun o' s'' hs' => ?_⟩
  obtain ⟨-, rfl⟩ := Prod.mk.inj (Option.some.inj (hs.symm.trans hs'))
  exact h

/-- Servers that answer alike, in related states, the calls that meet their guards give the same
answers to every sequence of such calls, and end in related states. -/
theorem Server.session_eq {S : Server σ ι ο} {T : Server τ ι ο} {R : σ → τ → Prop}
    {G : σ → ι → Prop} {H : τ → ι → Prop}
    (h : ∀ s t i, R s t → G s i → H t i →
      ∃ o s' t', S s i = some (o, s') ∧ T t i = some (o, t') ∧ R s' t')
    {is : List ι} {s : σ} {t : τ} (hst : R s t) (hG : Server.Guarded S G s is)
    (hH : Server.Guarded T H t is) :
    ∃ os s' t', Server.session S s is = some (os, s') ∧ Server.session T t is = some (os, t') ∧
      R s' t' := by
  induction is generalizing s t with
  | nil => exact ⟨[], s, t, rfl, rfl, hst⟩
  | cons i is ih =>
    obtain ⟨hi, hG⟩ := hG
    obtain ⟨hi', hH⟩ := hH
    obtain ⟨o, s', t', hs, ht, hst'⟩ := h s t i hst hi hi'
    obtain ⟨os, s'', t'', hS, hT, hst''⟩ := ih hst' (hG o s' hs) (hH o t' ht)
    refine ⟨o :: os, s'', t'', ?_, ?_, hst''⟩
    · simp [Server.session, hs, hS]
    · simp [Server.session, ht, hT]

end Server

end CxxPandora.Lib
