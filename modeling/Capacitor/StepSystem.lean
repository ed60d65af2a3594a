import Mathlib.Tactic

/-!
# Runs of partial step functions

A system is a partial step function: an action that is not enabled has no successor. `run`
performs a list of actions, and `Along` asks that every action of a run meets a condition in the
state it is taken from. Safety proofs use `run_invariant`, and `run_invariant_along` when the
step lemma needs the condition.
-/

namespace StepSystem

variable {σ α : Type*}

def run (step : σ → α → Option σ) : σ → List α → Option σ
  | s, [] => some s
  | s, a :: as => (step s a).bind (fun t => run step t as)

/-- Every action performed from `s` meets `c` in the state before it. -/
def Along (step : σ → α → Option σ) (c : σ → α → Prop) : σ → List α → Prop
  | _, [] => True
  | s, a :: as => c s a ∧ (step s a).elim True (fun t => Along step c t as)

instance decidableAlong (step : σ → α → Option σ) (c : σ → α → Prop)
    [∀ s a, Decidable (c s a)] : (s : σ) → (as : List α) → Decidable (Along step c s as)
  | _, [] => isTrue trivial
  | s, a :: as =>
      match h : step s a with
      | none => decidable_of_iff (c s a) (by simp [Along, h])
      | some t =>
          have := decidableAlong step c t as
          decidable_of_iff (c s a ∧ Along step c t as) (by simp [Along, h])

@[simp] theorem run_nil (step : σ → α → Option σ) (s : σ) : run step s [] = some s := rfl

theorem run_cons_eq_some (step : σ → α → Option σ) (s u : σ) (a : α) (as : List α) :
    run step s (a :: as) = some u ↔ ∃ t, step s a = some t ∧ run step t as = some u := by
  simp only [run, Option.bind_eq_some_iff]

theorem run_append_eq_some (step : σ → α → Option σ) (s u : σ) (as bs : List α) :
    run step s (as ++ bs) = some u ↔
      ∃ t, run step s as = some t ∧ run step t bs = some u := by
  induction as generalizing s with
  | nil => simp
  | cons a as ih =>
      simp only [List.cons_append, run_cons_eq_some, ih]
      constructor
      · rintro ⟨t, hstep, v, hv, hu⟩
        exact ⟨v, ⟨t, hstep, hv⟩, hu⟩
      · rintro ⟨v, ⟨t, hstep, hv⟩, hu⟩
        exact ⟨t, hstep, v, hv, hu⟩

theorem run_singleton (step : σ → α → Option σ) (s : σ) (a : α) :
    run step s [a] = step s a := by
  cases h : step s a <;> simp [run, h]

theorem run_invariant {step : σ → α → Option σ} {P : σ → Prop}
    (hstep : ∀ s a t, P s → step s a = some t → P t) {s u : σ} {as : List α}
    (hs : P s) (hrun : run step s as = some u) : P u := by
  induction as generalizing s with
  | nil =>
      cases hrun
      exact hs
  | cons a as ih =>
      obtain ⟨t, ht, hu⟩ := (run_cons_eq_some step s u a as).1 hrun
      exact ih (hstep s a t hs ht) hu

theorem along_cons {step : σ → α → Option σ} {c : σ → α → Prop} {s t : σ} {a : α} {as : List α}
    (h : Along step c s (a :: as)) (ht : step s a = some t) : c s a ∧ Along step c t as := by
  refine ⟨h.1, ?_⟩
  have hrest := h.2
  rwa [ht] at hrest

theorem along_append_iff {step : σ → α → Option σ} {c : σ → α → Prop} {s : σ} {as bs : List α} :
    Along step c s (as ++ bs) ↔
      Along step c s as ∧ ∀ t, run step s as = some t → Along step c t bs := by
  induction as generalizing s with
  | nil => exact ⟨fun h => ⟨trivial, fun t ht => Option.some.inj ht ▸ h⟩, fun h => h.2 s rfl⟩
  | cons a as ih =>
      have hrun (t : σ) : run step s (a :: as) = some t ↔
          ∃ u, step s a = some u ∧ run step u as = some t := run_cons_eq_some step s t a as
      simp only [List.cons_append, Along, hrun]
      cases hstep : step s a with
      | none => simp
      | some u => simp [ih, and_assoc]

theorem along_append {step : σ → α → Option σ} {c : σ → α → Prop} {s t : σ} {as bs : List α}
    (h : Along step c s (as ++ bs)) (hrun : run step s as = some t) :
    Along step c s as ∧ Along step c t bs :=
  ⟨(along_append_iff.1 h).1, (along_append_iff.1 h).2 t hrun⟩

theorem along_initial {step : σ → α → Option σ} {c : σ → α → Prop} {s : σ} {as bs : List α}
    (h : Along step c s as) (hbs : bs <+: as) : Along step c s bs := by
  obtain ⟨cs, rfl⟩ := hbs
  exact (along_append_iff.1 h).1

theorem along_of_forall {step : σ → α → Option σ} {c : σ → α → Prop} {as : List α}
    (h : ∀ a ∈ as, ∀ s, c s a) (s : σ) : Along step c s as := by
  induction as generalizing s with
  | nil => trivial
  | cons a as ih =>
      refine ⟨h a List.mem_cons_self s, ?_⟩
      cases step s a with
      | none => trivial
      | some t => exact ih (fun b hb => h b (List.mem_cons_of_mem _ hb)) t

theorem along_of_forall_mem {step : σ → α → Option σ} {p : α → Prop} {as : List α}
    (h : ∀ a ∈ as, p a) (s : σ) : Along step (fun _ a => p a) s as :=
  along_of_forall (fun a ha _ => h a ha) s

theorem along_and {step : σ → α → Option σ} {c c' : σ → α → Prop} {s : σ} {as : List α}
    (h : Along step c s as) (h' : Along step c' s as) :
    Along step (fun s a => c s a ∧ c' s a) s as := by
  induction as generalizing s with
  | nil => trivial
  | cons a as ih =>
      obtain ⟨hc, hrest⟩ := h
      obtain ⟨hc', hrest'⟩ := h'
      refine ⟨⟨hc, hc'⟩, ?_⟩
      cases hstep : step s a with
      | none => trivial
      | some t =>
          rw [hstep] at hrest hrest'
          exact ih hrest hrest'

/-- A property kept by every step that meets the condition holds in every state of a run all of
whose steps meet it. -/
theorem run_invariant_along {step : σ → α → Option σ} {c : σ → α → Prop} {P : σ → Prop}
    (hstep : ∀ s a t, P s → c s a → step s a = some t → P t) {s u : σ} {as : List α}
    (hs : P s) (halong : Along step c s as) (hrun : run step s as = some u) : P u := by
  induction as generalizing s with
  | nil =>
      cases hrun
      exact hs
  | cons a as ih =>
      obtain ⟨t, ht, hu⟩ := (run_cons_eq_some step s u a as).1 hrun
      obtain ⟨hc, hrest⟩ := along_cons halong ht
      exact ih (hstep s a t hs hc ht) hrest hu

theorem run_foldl {β : Type*} {step : σ → α → Option σ} {c : σ → α → Prop} {P : σ → Prop}
    {f : σ → β} {g : β → α → β}
    (hstep : ∀ s a t, P s → c s a → step s a = some t → P t ∧ f t = g (f s) a) {s u : σ}
    {as : List α} (hs : P s) (halong : Along step c s as) (hrun : run step s as = some u) :
    P u ∧ f u = as.foldl g (f s) := by
  induction as generalizing s with
  | nil =>
      cases hrun
      exact ⟨hs, rfl⟩
  | cons a as ih =>
      obtain ⟨t, ht, hu⟩ := (run_cons_eq_some step s u a as).1 hrun
      obtain ⟨hP, hf⟩ := hstep s a t hs (along_cons halong ht).1 ht
      rw [List.foldl_cons, ← hf]
      exact ih hP (along_cons halong ht).2 hu

theorem length_le_of_lowers {step : σ → α → Option σ} {c : σ → α → Prop} {f : σ → ℕ}
    (hstep : ∀ s a t, c s a → step s a = some t → f t < f s) {s u : σ} {as : List α}
    (halong : Along step c s as) (hrun : run step s as = some u) : as.length + f u ≤ f s := by
  induction as generalizing s with
  | nil =>
      cases hrun
      exact (Nat.zero_add _).le
  | cons a as ih =>
      obtain ⟨t, ht, hu⟩ := (run_cons_eq_some step s u a as).1 hrun
      have hlater := ih (along_cons halong ht).2 hu
      have hlower := hstep s a t (along_cons halong ht).1 ht
      rw [List.length_cons]
      omega

/-- When each step keeps a property exactly if it meets the condition, the runs that meet the
condition throughout are those that never leave the property. -/
theorem along_iff_forall_run {step : σ → α → Option σ} {c : σ → α → Prop} {P : σ → Prop}
    (hdisabled : ∀ s a, P s → step s a = none → c s a)
    (hstep : ∀ s a t, P s → step s a = some t → (c s a ↔ P t)) {s : σ} (hs : P s) (as : List α) :
    Along step c s as ↔ ∀ bs t, bs <+: as → run step s bs = some t → P t := by
  induction as generalizing s with
  | nil =>
      refine ⟨fun _ bs t hbs hrun => ?_, fun _ => trivial⟩
      obtain rfl := List.prefix_nil.1 hbs
      cases hrun
      exact hs
  | cons a as ih =>
      constructor
      · intro h bs t hbs hrun
        exact run_invariant_along (fun s a t hs hc ht => (hstep s a t hs ht).1 hc) hs
          (along_initial h hbs) hrun
      · intro h
        cases ht : step s a with
        | none => exact ⟨hdisabled s a hs ht, by rw [ht]; trivial⟩
        | some t =>
            have hrun (bs : List α) : run step s (a :: bs) = run step t bs := by
              rw [run, ht, Option.bind_some]
            have hPt : P t := h [a] t (by simp) (hrun [])
            refine ⟨(hstep s a t hs ht).2 hPt, ?_⟩
            rw [ht]
            refine (ih hPt).2 (fun bs u hbs hu => ?_)
            exact h (a :: bs) u ((List.prefix_cons_inj a).2 hbs) ((hrun bs).trans hu)

/-- When a step that fails the condition loses the property for good, the property of the last state
tells whether the condition was met throughout. -/
theorem along_and_iff {step : σ → α → Option σ} {c : σ → α → Prop} {P : σ → Prop}
    (hstep : ∀ s a t, step s a = some t → (c s a ∧ P s ↔ P t)) {s u : σ} {as : List α}
    (hrun : run step s as = some u) : Along step c s as ∧ P s ↔ P u := by
  induction as generalizing s with
  | nil =>
      cases hrun
      exact and_iff_right trivial
  | cons a as ih =>
      obtain ⟨t, ht, hu⟩ := (run_cons_eq_some step s u a as).1 hrun
      rw [← ih hu, ← hstep s a t ht, Along, ht, Option.elim_some]
      exact ⟨fun h => ⟨h.1.2, h.1.1, h.2⟩, fun h => ⟨⟨h.2.1, h.1⟩, h.2.2⟩⟩

theorem along_of_along {step : σ → α → Option σ} {c d : σ → α → Prop} {P : σ → Prop}
    (hstep : ∀ s a t, P s → c s a → step s a = some t → P t)
    (himp : ∀ s a, P s → c s a → d s a) {s : σ} {as : List α} (hs : P s)
    (h : Along step c s as) : Along step d s as := by
  induction as generalizing s with
  | nil => trivial
  | cons a as ih =>
      refine ⟨himp s a hs h.1, ?_⟩
      cases ht : step s a with
      | none => trivial
      | some t => exact ih (hstep s a t hs h.1 ht) (along_cons h ht).2

section Follow

variable {τ β : Type*} {step : σ → α → Option σ} {step' : τ → β → Option τ} {c : σ → α → Prop}
  {f : σ → τ} {g : α → β}

/-- A run whose steps another system follows, with actions of its own, is followed by it as a
whole. -/
theorem run_relabel (hstep : ∀ s a, c s a → step' (f s) (g a) = (step s a).map f) {s : σ}
    {as : List α} (h : Along step c s as) : run step' (f s) (as.map g) = (run step s as).map f := by
  induction as generalizing s with
  | nil => rfl
  | cons a as ih =>
      rw [List.map_cons, run, run, hstep s a h.1]
      cases ht : step s a with
      | none => rfl
      | some t => exact ih (along_cons h ht).2

theorem along_relabel (hstep : ∀ s a, c s a → step' (f s) (g a) = (step s a).map f)
    {d : τ → β → Prop} (hd : ∀ s a, c s a → d (f s) (g a)) {s : σ} {as : List α}
    (h : Along step c s as) : Along step' d (f s) (as.map g) := by
  induction as generalizing s with
  | nil => trivial
  | cons a as ih =>
      refine ⟨hd s a h.1, ?_⟩
      rw [hstep s a h.1]
      cases ht : step s a with
      | none => trivial
      | some t => exact ih (along_cons h ht).2

end Follow

theorem run_map {τ : Type*} {step : σ → α → Option σ} {step' : τ → α → Option τ}
    {c : σ → α → Prop} {f : σ → τ} (hstep : ∀ s a, c s a → step' (f s) a = (step s a).map f)
    {s : σ} {as : List α} (h : Along step c s as) :
    run step' (f s) as = (run step s as).map f := by
  have hrun := run_relabel (g := id) hstep h
  rwa [List.map_id] at hrun

section StepEq

variable {step step' : σ → α → Option σ} {c : σ → α → Prop}

theorem run_of_step_eq (hstep : ∀ s a, c s a → step s a = step' s a) {s : σ} {as : List α}
    (h : Along step c s as) : run step s as = run step' s as := by
  have hrun : run step' (id s) as = (run step s as).map id :=
    run_map (fun s a ha => by rw [id, hstep s a ha, Option.map_id, id]) h
  rw [Option.map_id] at hrun
  exact hrun.symm

theorem along_of_step_eq (hstep : ∀ s a, c s a → step s a = step' s a) {d : σ → α → Prop} {s : σ}
    {as : List α} (h : Along step c s as) (hd : Along step d s as) : Along step' d s as := by
  induction as generalizing s with
  | nil => trivial
  | cons a as ih =>
      refine ⟨hd.1, ?_⟩
      rw [← hstep s a h.1]
      cases ht : step s a with
      | none => trivial
      | some t => exact ih (along_cons h ht).2 (along_cons hd ht).2

end StepEq

theorem exists_of_not_along {step : σ → α → Option σ} {c : σ → α → Prop} {s : σ} {as : List α}
    (h : ¬ Along step c s as) :
    ∃ bs a t, bs ++ [a] <+: as ∧ Along step c s bs ∧ run step s bs = some t ∧ ¬ c t a := by
  induction as generalizing s with
  | nil => exact absurd trivial h
  | cons a as ih =>
      by_cases hc : c s a
      · cases ht : step s a with
        | none => exact absurd ⟨hc, by rw [ht]; trivial⟩ h
        | some t =>
            have hrest : ¬ Along step c t as := fun hrest => h ⟨hc, by rw [ht]; exact hrest⟩
            obtain ⟨bs, b, u, hbs, halong, hrun, hb⟩ := ih hrest
            refine ⟨a :: bs, b, u, (List.prefix_cons_inj a).2 hbs, ⟨hc, ?_⟩, ?_, hb⟩
            · rw [ht]
              exact halong
            · exact (run_cons_eq_some step s u a bs).2 ⟨t, ht, hrun⟩
      · exact ⟨[], a, s, List.prefix_append [a] as, trivial, rfl, hc⟩

/-- When each step that fails the condition can be continued to one that fails another, so can each
run. -/
theorem exists_not_along {step : σ → α → Option σ} {c d : σ → α → Prop} {P : σ → Prop}
    (hstep : ∀ s a t, P s → c s a → step s a = some t → P t)
    (hbad : ∀ s a, P s → ¬ c s a → ∃ cs, ¬ Along step d s (a :: cs)) {s : σ} {as : List α}
    (hs : P s) (h : ¬ Along step c s as) :
    ∃ bs cs, bs <+: as ∧ ¬ Along step d s (bs ++ cs) := by
  obtain ⟨bs, a, t, hbs, halong, hrun, ha⟩ := exists_of_not_along h
  obtain ⟨cs, hcs⟩ := hbad t a (run_invariant_along hstep hs halong hrun) ha
  refine ⟨bs, a :: cs, (List.prefix_append bs [a]).trans hbs, fun hd => hcs ?_⟩
  exact (along_append hd hrun).2

/-- Nodes that each have a state of their own, and a record of the calls that were made on them. -/
structure Cluster (ι N C : Type*) where
  nodes : ι → N
  issued : List C

namespace Cluster

variable {ι N C : Type*} [DecidableEq ι]

def setNode (s : Cluster ι N C) (i : ι) (n : N) : Cluster ι N C :=
  { s with nodes := Function.update s.nodes i n }

theorem nodes_setNode (s : Cluster ι N C) (i : ι) (n : N) (i' : ι) :
    (s.setNode i n).nodes i' = if i' = i then n else s.nodes i' :=
  Function.update_apply _ _ _ _

theorem forall_setNode {s : Cluster ι N C} {P : ι → N → Prop} (h : ∀ i, P i (s.nodes i)) {i : ι}
    {n : N} (hn : P i n) (i' : ι) : P i' ((s.setNode i n).nodes i') := by
  rw [nodes_setNode]
  split_ifs with hi
  · rw [hi]
    exact hn
  · exact h i'

end Cluster

end StepSystem
