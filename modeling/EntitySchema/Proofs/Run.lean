import EntitySchema.Journal
import Mathlib.Data.List.Forall2

/-!
# Opening runs that gave a result

A stage that gives a result has given one in each of its steps. These lemmas take a run apart step by step, and carry an
invariant through a fold of steps.

* `Yields`: a stage that gives a result of which something is known.
* `FailsBy`: a stage of whose errors something is known.
* `OnlyMisuses`: a stage that can only fail by a misuse.

Results:
* `bind_eq_ok`, `map_eq_ok`, `lift_eq_ok`: results of successive and of lifted steps.
* `bind_isOk_iff`, `mapM_isOk_iff`: when there is a result.
* `mapM_eq_ok_iff`: the results of steps one by one.
* `foldlM_invariant`: what every step keeps, the fold keeps.
* `foldlM_eq_foldl`: a fold of steps whose results are known is a plain fold.
* `Run.result_foldlM`: a fold of runs, as far as results are concerned.
* `Run.mem_diagnostics_bind_left`, `Run.mem_diagnostics_bind_right`: no message of a step is lost.
-/
namespace EntitySchema

variable {α β σ ε : Type}

theorem ok_bind (a : α) (f : α → Except ε β) : ((.ok a : Except ε α) >>= f) = f a := rfl

theorem bind_eq_ok {x : Except ε α} {f : α → Except ε β} {b : β} :
    (x >>= f) = .ok b ↔ ∃ a, x = .ok a ∧ f a = .ok b := by
  cases x with
  | error e => exact ⟨fun h => (nomatch h), fun ⟨_, h, _⟩ => (nomatch h)⟩
  | ok a => exact ⟨fun h => ⟨a, rfl, h⟩, fun ⟨_, ha, h⟩ => by cases ha; exact h⟩

theorem map_eq_ok {x : Except ε α} {f : α → β} {b : β} : x.map f = .ok b ↔ ∃ a, x = .ok a ∧ f a = b := by
  cases x <;> simp [Except.map]

@[simp] theorem lift_eq_ok {x : Except Misuse α} {a : α} : (liftM x : Except Error α) = .ok a ↔ x = .ok a := by
  cases x with
  | error cause => exact ⟨fun h => (nomatch h), fun h => (nomatch h)⟩
  | ok b => exact ⟨fun h => by cases h; rfl, fun h => by cases h; rfl⟩

/-- Whether there is a result, and it has a property that can be evaluated. -/
def gives (x : Except ε α) (p : α → Bool) : Bool :=
  match x with
  | .ok a => p a
  | .error _ => false

theorem gives_iff {x : Except ε α} {p : α → Bool} : gives x p = true ↔ ∃ a, x = .ok a ∧ p a = true := by
  cases x <;> simp [gives]

/-- Whether there is an error, and it has a property that can be evaluated. -/
def raises (x : Except ε α) (p : ε → Bool) : Bool :=
  match x with
  | .ok _ => false
  | .error e => p e

theorem raises_iff {x : Except ε α} {p : ε → Bool} : raises x p = true ↔ ∃ e, x = .error e ∧ p e = true := by
  cases x <;> simp [raises]

/-- What every step keeps, the fold keeps. -/
theorem foldlM_invariant {f : σ → α → Except ε σ} (P : σ → Prop) :
    ∀ {xs : List α} {start last : σ}, (∀ s x s', x ∈ xs → P s → f s x = .ok s' → P s') → P start →
      xs.foldlM f start = .ok last → P last
  | [], _, _, _, h0, h => by cases h; exact h0
  | x :: rest, start, last, hstep, h0, h => by
    rw [List.foldlM_cons] at h
    obtain ⟨s, hs, h⟩ := bind_eq_ok.1 h
    exact foldlM_invariant P (fun s x s' hx => hstep s x s' (List.mem_cons_of_mem _ hx))
      (hstep start x s List.mem_cons_self h0 hs) h

/-- A fold of steps whose results are known is a plain fold. -/
theorem foldlM_eq_foldl {f : σ → α → Except ε σ} {g : σ → α → σ} :
    ∀ {xs : List α} {start : σ}, (∀ s, ∀ x ∈ xs, f s x = .ok (g s x)) → xs.foldlM f start = .ok (xs.foldl g start)
  | [], _, _ => rfl
  | x :: rest, start, h => by
    rw [List.foldlM_cons, h start x List.mem_cons_self]
    exact foldlM_eq_foldl fun s x hx => h s x (List.mem_cons_of_mem _ hx)

/-- Steps whose results are known, one by one. -/
theorem mapM_eq_map {f : α → Except ε β} {g : α → β} :
    ∀ {xs : List α}, (∀ x ∈ xs, f x = .ok (g x)) → xs.mapM f = .ok (xs.map g)
  | [], _ => rfl
  | x :: rest, h => by
    rw [List.mapM_cons, h x List.mem_cons_self, mapM_eq_map fun x hx => h x (List.mem_cons_of_mem _ hx)]
    rfl

/-! ## Stages that give a result -/

theorem map_isOk_iff {x : Except ε α} {f : α → β} : (∃ b, x.map f = .ok b) ↔ ∃ a, x = .ok a := by
  cases x <;> simp [Except.map]

/-- Two steps give a result exactly if the first does, and the second after it. -/
theorem bind_isOk_iff {x : Except ε α} {f : α → Except ε β} :
    (∃ b, (x >>= f) = .ok b) ↔ ∃ a, x = .ok a ∧ ∃ b, f a = .ok b := by
  simp only [bind_eq_ok]
  exact exists_comm.trans (exists_congr fun a => exists_and_left)

/-- A step before one that always gives a result. -/
theorem bind_isOk_of_total {x : Except ε α} {f : α → Except ε β} (hf : ∀ a, ∃ b, f a = .ok b) :
    (∃ b, (x >>= f) = .ok b) ↔ ∃ a, x = .ok a := by
  rw [bind_isOk_iff]
  exact exists_congr fun a => and_iff_left (hf a)

/-- There is a result, and it has a property. -/
def Yields (x : Except ε α) (P : α → Prop) : Prop :=
  ∃ a, x = .ok a ∧ P a

theorem yields_ok {P : α → Prop} {a : α} (h : P a) : Yields (.ok a : Except ε α) P :=
  ⟨a, rfl, h⟩

theorem Yields.bind {x : Except ε α} {f : α → Except ε β} {P : α → Prop} {Q : β → Prop} (h : Yields x P)
    (hf : ∀ a, P a → Yields (f a) Q) : Yields (x >>= f) Q := by
  obtain ⟨a, rfl, hP⟩ := h
  exact hf a hP

theorem Yields.map {x : Except ε α} {f : α → β} {P : α → Prop} {Q : β → Prop} (h : Yields x P) (hf : ∀ a, P a → Q (f a)) :
    Yields (x.map f) Q := by
  obtain ⟨a, rfl, hP⟩ := h
  exact ⟨f a, rfl, hf a hP⟩

theorem Yields.lift {x : Except Misuse α} {P : α → Prop} (h : Yields x P) : Yields (liftM x : Except Error α) P := by
  obtain ⟨a, rfl, hP⟩ := h
  exact ⟨a, rfl, hP⟩

/-- Steps one by one give a result exactly if each does. -/
theorem mapM_isOk_iff {f : α → Except ε β} {xs : List α} : (∃ ys, xs.mapM f = .ok ys) ↔ ∀ x ∈ xs, ∃ y, f x = .ok y := by
  induction xs with
  | nil => exact ⟨fun _ _ hx => absurd hx List.not_mem_nil, fun _ => ⟨[], rfl⟩⟩
  | cons x rest ih =>
    have hrest : ∀ y, (∃ ys, (rest.mapM f >>= fun ys => pure (y :: ys)) = .ok ys) ↔ ∀ x ∈ rest, ∃ y, f x = .ok y := fun y =>
      (bind_isOk_of_total fun ys => ⟨y :: ys, rfl⟩).trans ih
    rw [List.mapM_cons, List.forall_mem_cons, bind_isOk_iff]
    simp only [hrest]
    exact exists_and_right

/-- Steps one by one give their results in their order. -/
theorem mapM_eq_ok_iff {f : α → Except ε β} {xs : List α} {ys : List β} :
    xs.mapM f = .ok ys ↔ List.Forall₂ (fun x y => f x = .ok y) xs ys := by
  induction xs generalizing ys with
  | nil =>
    rw [List.forall₂_nil_left_iff]
    exact ⟨fun h => (Except.ok.inj h).symm, fun h => congrArg Except.ok h.symm⟩
  | cons x rest ih =>
    rw [List.mapM_cons, bind_eq_ok, List.forall₂_cons_left_iff]
    refine exists_congr fun first => ?_
    simp only [bind_eq_ok, ih]
    constructor
    · rintro ⟨hfirst, others, hothers, hys⟩
      cases hys
      exact ⟨others, hfirst, hothers, rfl⟩
    · rintro ⟨others, hfirst, hothers, rfl⟩
      exact ⟨hfirst, others, hothers, rfl⟩

/-- If every step gives a result and keeps a property, so does the fold. -/
theorem yields_foldlM {f : σ → α → Except ε σ} {P : σ → Prop} :
    ∀ {xs : List α} {start : σ}, (∀ s, ∀ x ∈ xs, P s → Yields (f s x) P) → P start → Yields (xs.foldlM f start) P
  | [], start, _, h0 => ⟨start, rfl, h0⟩
  | x :: rest, start, hstep, h0 => by
    rw [List.foldlM_cons]
    exact (hstep start x List.mem_cons_self h0).bind fun s hs =>
      yields_foldlM (fun s x hx => hstep s x (List.mem_cons_of_mem _ hx)) hs

/-- A fold stops because one of its steps does. -/
theorem exists_of_foldlM_eq_error {f : σ → α → Except ε σ} {e : ε} :
    ∀ {xs : List α} {start : σ}, xs.foldlM f start = .error e → ∃ s, ∃ x ∈ xs, f s x = .error e
  | [], _, h => nomatch h
  | x :: rest, start, h => by
    rw [List.foldlM_cons] at h
    cases hs : f start x with
    | error e' =>
      rw [hs] at h
      cases h
      exact ⟨start, x, List.mem_cons_self, hs⟩
    | ok s =>
      rw [hs] at h
      obtain ⟨s', x', hx', hstep⟩ := exists_of_foldlM_eq_error h
      exact ⟨s', x', List.mem_cons_of_mem _ hx', hstep⟩

/-- Every step of a fold with a result has one. -/
theorem exists_of_foldlM_eq_ok {f : σ → α → Except ε σ} :
    ∀ {xs : List α} {start last : σ}, xs.foldlM f start = .ok last → ∀ x ∈ xs, ∃ s s', f s x = .ok s'
  | [], _, _, _ => fun _ hx => absurd hx List.not_mem_nil
  | x :: rest, start, last, h => by
    rw [List.foldlM_cons] at h
    obtain ⟨s, hs, h⟩ := bind_eq_ok.1 h
    intro y hy
    rcases List.mem_cons.1 hy with rfl | hy
    · exact ⟨start, s, hs⟩
    · exact exists_of_foldlM_eq_ok h y hy

/-! ## Stages whose errors are known -/

/-- Every error has a property. -/
def FailsBy (Q : Error → Prop) (x : Except Error α) : Prop :=
  ∀ e, x = .error e → Q e

section
variable {Q : Error → Prop}

theorem failsBy_ok {a : α} : FailsBy Q (.ok a) := fun _ h => nomatch h

theorem failsBy_lift (hQ : ∀ cause, Q (.misused cause)) {x : Except Misuse α} : FailsBy Q (liftM x : Except Error α) := by
  intro e h
  cases x with
  | ok a => cases h
  | error cause => cases h; exact hQ cause

theorem FailsBy.bind {x : Except Error α} {f : α → Except Error β} (h : FailsBy Q x)
    (hf : ∀ a, x = .ok a → FailsBy Q (f a)) : FailsBy Q (x >>= f) := by
  intro e he
  cases hx : x with
  | ok a => rw [hx] at he; exact hf a hx e he
  | error e' => rw [hx] at he; cases he; exact h _ hx

theorem FailsBy.map {x : Except Error α} {f : α → β} (h : FailsBy Q x) : FailsBy Q (x.map f) := by
  intro e he
  cases x with
  | ok a => cases he
  | error e' => cases he; exact h _ rfl

theorem failsBy_foldlM {f : σ → α → Except Error σ} {xs : List α} (h : ∀ s, ∀ x ∈ xs, FailsBy Q (f s x)) (start : σ) :
    FailsBy Q (xs.foldlM f start) := by
  intro e he
  obtain ⟨s, x, hx, hstep⟩ := exists_of_foldlM_eq_error he
  exact h s x hx e hstep

end

/-! ## Stages that can only misuse a value -/

/-- There is a result, or a value was misused. -/
def OnlyMisuses (x : Except Error α) : Prop :=
  ∀ e, x = .error e → ∃ cause, e = .misused cause

theorem onlyMisuses_ok {a : α} : OnlyMisuses (.ok a) := failsBy_ok

theorem onlyMisuses_lift {x : Except Misuse α} : OnlyMisuses (liftM x) :=
  failsBy_lift fun cause => ⟨cause, rfl⟩

theorem OnlyMisuses.bind {x : Except Error α} {f : α → Except Error β} (h : OnlyMisuses x) (hf : ∀ a, OnlyMisuses (f a)) :
    OnlyMisuses (x >>= f) :=
  FailsBy.bind h fun a _ => hf a

theorem onlyMisuses_foldlM {f : σ → α → Except Error σ} (h : ∀ s x, OnlyMisuses (f s x)) (xs : List α) (start : σ) :
    OnlyMisuses (xs.foldlM f start) :=
  failsBy_foldlM (fun s x _ => h s x) start

namespace Run

@[simp] theorem lift_eq_ok {x : Except Misuse α} {a : α} : (liftM x : Run α).result = .ok a ↔ x = .ok a :=
  EntitySchema.lift_eq_ok

theorem bind_of_ok {x : Run α} {f : α → Run β} {a : α} (h : x.result = .ok a) : (x >>= f).result = (f a).result := by
  rw [result_bind, h]
  rfl

/-- The result of a fold of runs does not depend on journals. -/
theorem result_foldlM {f : σ → α → Run σ} {xs : List α} {start : σ} :
    (xs.foldlM f start).result = xs.foldlM (fun s x => (f s x).result) start := by
  induction xs generalizing start with
  | nil => rfl
  | cons x rest ih => simp only [List.foldlM_cons, result_bind, ih]

/-- What every step keeps, the fold keeps. -/
theorem foldlM_invariant {f : σ → α → Run σ} (P : σ → Prop) {xs : List α} {start last : σ} :
    (∀ s x s', x ∈ xs → P s → (f s x).result = .ok s' → P s') → P start →
      (xs.foldlM f start).result = .ok last → P last := by
  intro hstep h0 h
  rw [result_foldlM] at h
  exact EntitySchema.foldlM_invariant P hstep h0 h

/-- If every step gives a result and keeps a property, so does the fold. -/
theorem yields_foldlM {f : σ → α → Run σ} {P : σ → Prop} {xs : List α} {start : σ}
    (hstep : ∀ s, ∀ x ∈ xs, P s → Yields (f s x).result P) (h0 : P start) : Yields (xs.foldlM f start).result P := by
  rw [result_foldlM]
  exact EntitySchema.yields_foldlM hstep h0

theorem failsBy_bind {Q : Error → Prop} {x : Run α} {f : α → Run β} (h : FailsBy Q x.result)
    (hf : ∀ a, x.result = .ok a → FailsBy Q (f a).result) : FailsBy Q (x >>= f).result := by
  rw [result_bind]
  exact h.bind hf

theorem failsBy_foldlM {Q : Error → Prop} {f : σ → α → Run σ} {xs : List α} (h : ∀ s, ∀ x ∈ xs, FailsBy Q (f s x).result)
    (start : σ) : FailsBy Q (xs.foldlM f start).result := by
  rw [result_foldlM]
  exact EntitySchema.failsBy_foldlM h start

/-- A run that is not given up gives its result. -/
theorem orGiveUp_eq_ok_some {x : Run α} {a : α} : x.orGiveUp.result = .ok (some a) ↔ x.result = .ok a := by
  unfold orGiveUp
  cases x.result with
  | ok b => simp
  | error e => simp only; split <;> simp

/-- A run is given up for an error that concerns one entity only. -/
theorem orGiveUp_eq_ok_none {x : Run α} : x.orGiveUp.result = .ok none ↔ ∃ e, x.result = .error e ∧ e.skips = true := by
  unfold orGiveUp
  cases x.result with
  | ok b => simp
  | error e => simp only; split <;> simp_all

/-- A run stops for an error that concerns more than one entity. -/
theorem orGiveUp_eq_error {x : Run α} {e : Error} (h : x.result = .error e) (he : e.skips = false) :
    x.orGiveUp.result = .error e := by
  unfold orGiveUp
  rw [h]
  simp [he]

/-! ## Messages -/

theorem mem_diagnostics_bind_left {x : Run α} {f : α → Run β} {text : String} (h : text ∈ x.diagnostics) :
    text ∈ (x >>= f).diagnostics := by
  unfold diagnostics at h ⊢
  rw [journal_bind, List.filterMap_append]
  exact List.mem_append_left _ h

theorem mem_diagnostics_bind_right {x : Run α} {f : α → Run β} {a : α} {text : String} (hx : x.result = .ok a)
    (h : text ∈ (f a).diagnostics) : text ∈ (x >>= f).diagnostics := by
  unfold diagnostics at h ⊢
  rw [journal_bind, List.filterMap_append, hx]
  exact List.mem_append_right _ h

/-- A run that is given up leaves a message. -/
theorem mem_diagnostics_orGiveUp {x : Run α} {e : Error} (h : x.result = .error e) (he : e.skips = true) :
    e.message ∈ x.orGiveUp.diagnostics := by
  unfold orGiveUp
  rw [h]
  simp [he, diagnostics, Entry.diagnostic?]

/-! ## Folds that gather -/

/-- A fold whose steps do not see what was gathered before them: what each step gives is gathered afterwards. -/
theorem foldlM_map_eq_ok {g : α → Run β} {put : σ → β → σ} {xs : List α} {start last : σ} :
    (xs.foldlM (fun acc x => do return put acc (← g x)) start).result = .ok last ↔
      ∃ found, List.Forall₂ (fun x b => (g x).result = .ok b) xs found ∧ last = found.foldl put start := by
  induction xs generalizing start with
  | nil =>
    constructor
    · intro h; cases h; exact ⟨[], .nil, rfl⟩
    · intro hfold
      obtain ⟨found, h, rfl⟩ := hfold
      cases h
      rfl
  | cons x rest ih =>
    rw [List.foldlM_cons, result_bind_eq_ok]
    constructor
    · intro hfold
      obtain ⟨s, hs, h⟩ := hfold
      obtain ⟨b, hb, hs⟩ := result_bind_eq_ok.1 hs
      cases hs
      obtain ⟨found, hfound, rfl⟩ := ih.1 h
      exact ⟨b :: found, .cons hb hfound, rfl⟩
    · intro hall
      obtain ⟨found, hfound, rfl⟩ := hall
      cases hfound with
      | @cons _ b _ found hb hfound =>
        exact ⟨put start b, result_bind_eq_ok.2 ⟨b, hb, rfl⟩, ih.2 ⟨found, hfound, rfl⟩⟩

end Run

end EntitySchema
