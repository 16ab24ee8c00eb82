import EntitySchema.Schema.Compile

/-!
# Sessions over a cached snapshot

Steps of any kind in any order share one cache: reading the snapshot or a part of it, loading it anew, compiling it. Whatever the
loader answers, the cache shows the snapshot that was loaded last, no step loads more than it has to, and all that a step answers
is read off one snapshot.

* `lastLoaded`: the snapshot of the last call of a loader that succeeded.
* `Step.perform`, `Step.run`: what a step, and what a list of steps, does with a cache.
* `Step.Sound`: what a step has to keep.

Results:
* `lastLoaded_eq_some_iff`, `lastLoaded_eq_none_iff`: what the last snapshot is, and when there is none.
* `perform_eq`: every step answers from the one snapshot that it gets.
* `shows_run`: after any steps the cache shows the last snapshot.
* `sound_after_run`: after any steps, any step is sound.
-/
namespace EntitySchema

/-! ## What was loaded last -/

/-- The snapshot of the last among the first calls of a loader that succeeded. -/
def lastLoaded (load : Loader) : Nat → Option Snapshot
  | 0 => none
  | n + 1 =>
    match load n with
    | .ok s => some s
    | .error _ => lastLoaded load n

theorem lastLoaded_succ_of_ok {load : Loader} {n : Nat} {s : Snapshot} (h : load n = .ok s) :
    lastLoaded load (n + 1) = some s := by
  rw [lastLoaded, h]

theorem lastLoaded_succ_of_error {load : Loader} {n : Nat} {e : Error} (h : load n = .error e) :
    lastLoaded load (n + 1) = lastLoaded load n := by
  rw [lastLoaded, h]

/-- The last snapshot is that of a call after which all calls failed. -/
theorem lastLoaded_eq_some_iff {load : Loader} {s : Snapshot} :
    ∀ {n : Nat}, lastLoaded load n = some s ↔
      ∃ k < n, load k = .ok s ∧ ∀ j, k < j → j < n → ∃ e, load j = .error e
  | 0 => by simp [lastLoaded]
  | n + 1 => by
    cases h : load n with
    | ok s' =>
      rw [lastLoaded_succ_of_ok h]
      constructor
      · intro hs
        obtain rfl := Option.some.inj hs
        exact ⟨n, by omega, h, fun j _ _ => by omega⟩
      · rintro ⟨k, hk, hload, hafter⟩
        rcases Nat.lt_succ_iff_lt_or_eq.1 hk with hlt | rfl
        · -- a later call that succeeded contradicts that all later calls failed
          obtain ⟨e, he⟩ := hafter n hlt (by omega)
          rw [h] at he; nomatch he
        · rw [h] at hload; cases hload; rfl
    | error e =>
      rw [lastLoaded_succ_of_error h, lastLoaded_eq_some_iff]
      constructor
      · rintro ⟨k, hk, hload, hafter⟩
        refine ⟨k, by omega, hload, fun j hj hn => ?_⟩
        rcases Nat.lt_succ_iff_lt_or_eq.1 hn with hlt | rfl
        · exact hafter j hj hlt
        · exact ⟨e, h⟩
      · rintro ⟨k, hk, hload, hafter⟩
        rcases Nat.lt_succ_iff_lt_or_eq.1 hk with hlt | rfl
        · exact ⟨k, hlt, hload, fun j hj hn => hafter j hj (by omega)⟩
        · rw [h] at hload; nomatch hload

/-- There is no snapshot yet as long as all calls failed. -/
theorem lastLoaded_eq_none_iff {load : Loader} :
    ∀ {n : Nat}, lastLoaded load n = none ↔ ∀ k < n, ∃ e, load k = .error e
  | 0 => by simp [lastLoaded]
  | n + 1 => by
    rw [Nat.forall_lt_succ_right]
    cases h : load n with
    | ok s => rw [lastLoaded_succ_of_ok h]; simp
    | error e => rw [lastLoaded_succ_of_error h, lastLoaded_eq_none_iff]; simp

/-! ## Caches that show it -/

namespace Cache

/-- A cache whose current snapshot is the one that was loaded last. -/
def Shows (load : Loader) (c : Cache) : Prop :=
  c.current = lastLoaded load c.loads

variable {load : Loader} {c : Cache}

theorem shows_empty (load : Loader) : Shows load {} := rfl

theorem Shows.reload (h : c.Shows load) : (c.reload load).2.Shows load := by
  rw [Shows, current_reload, loads_reload]
  cases hload : load c.loads with
  | ok s => exact (lastLoaded_succ_of_ok hload).symm
  | error e => exact h.trans (lastLoaded_succ_of_error hload).symm

/-- A snapshot is loaded if that is asked for or if there is none; else the current one is given and nothing is done. -/
theorem get_cases (load : Loader) (forced : Bool) (c : Cache) :
    ((forced = true ∨ c.current = none) ∧ c.get load forced = c.reload load) ∨
      (forced = false ∧ ∃ s, c.current = some s ∧ c.get load forced = (.ok s, c)) := by
  cases forced with
  | true => exact .inl ⟨.inl rfl, rfl⟩
  | false =>
    cases h : c.current with
    | none => exact .inl ⟨.inr rfl, by simp [get, access, h]⟩
    | some s => exact .inr ⟨rfl, s, rfl, access_of_current h load⟩

/-- A load gives the snapshot that it makes current, or the error of the loader. -/
theorem reload_cases (load : Loader) (c : Cache) :
    (∃ s, (c.reload load).1 = .ok s ∧ (c.reload load).2.current = some s) ∨
      ∃ e, load c.loads = .error e ∧ (c.reload load).1 = .error e := by
  rw [current_reload]
  unfold reload
  cases load c.loads with
  | ok s => exact .inl ⟨s, rfl, rfl⟩
  | error e => exact .inr ⟨e, rfl, rfl⟩

theorem Shows.get (h : c.Shows load) (forced : Bool) : (c.get load forced).2.Shows load := by
  rcases get_cases load forced c with ⟨-, hget⟩ | ⟨-, s, -, hget⟩ <;> rw [hget]
  · exact h.reload
  · exact h

/-- The loader is called once if that is asked for or if no call has succeeded, else not at all. -/
theorem Shows.loads_get (h : c.Shows load) (forced : Bool) :
    (c.get load forced).2.loads = c.loads + if forced = true ∨ lastLoaded load c.loads = none then 1 else 0 := by
  rw [← show c.current = lastLoaded load c.loads from h]
  rcases get_cases load forced c with ⟨hwhy, hget⟩ | ⟨hforced, s, hs, hget⟩ <;> rw [hget]
  · rw [loads_reload, if_pos hwhy]
  · rw [if_neg (by simp [hforced, hs])]; rfl

/-- A call that fails changes nothing. -/
theorem current_get_of_error {e : Error} (he : load c.loads = .error e) (forced : Bool) :
    (c.get load forced).2.current = c.current := by
  rcases get_cases load forced c with ⟨-, hget⟩ | ⟨-, s, -, hget⟩ <;> rw [hget]
  rw [current_reload, he]

/-- What a cache gives is the snapshot that is current afterwards, or the error of the one call that was made. -/
theorem get_found (load : Loader) (forced : Bool) (c : Cache) :
    (∃ s, (c.get load forced).2.current = some s ∧ (c.get load forced).1 = .ok s) ∨
      ∃ e, load c.loads = .error e ∧ (c.get load forced).2.loads = c.loads + 1 ∧ (c.get load forced).1 = .error e := by
  rcases get_cases load forced c with ⟨-, hget⟩ | ⟨-, s, hs, hget⟩ <;> rw [hget]
  · rcases reload_cases load c with ⟨s, hfound, hcurrent⟩ | ⟨e, he, hfound⟩
    · exact .inl ⟨s, hcurrent, hfound⟩
    · exact .inr ⟨e, he, loads_reload load c, hfound⟩
  · exact .inl ⟨s, hs, rfl⟩

end Cache

/-! ## Steps -/

/-- What is done with a cache. -/
inductive Step where
  | snapshot
  | entities
  | fieldType (name : String)
  | linkType (name : String)
  | reload
  | compile (forced : Bool)

namespace Step

/-- Whether a step asks for a load even if there is a snapshot. -/
def forces : Step → Bool
  | reload | compile true => true
  | _ => false

/-- What a step answers. -/
inductive Answer where
  | snapshot (found : Except Error Snapshot)
  | entities (found : Except Error (Members Key Declared))
  | fieldType (found : Except Error FieldType)
  | linkType (found : Except Error LinkType)
  | schema (run : Run Schema)

/-- The answer of a step, with the cache afterwards. -/
def perform (c : Compiler) (load : Loader) (cache : Cache) : Step → Answer × Cache
  | snapshot => (cache.access load).map .snapshot id
  | entities => (cache.entities load).map .entities id
  | fieldType name => (cache.fieldType load name).map .fieldType id
  | linkType name => (cache.linkType load name).map .linkType id
  | reload => (cache.reload load).map .snapshot id
  | compile forced => (Schema.compileCached c load forced cache).map .schema id

/-- The cache after a list of steps. -/
def run (c : Compiler) (load : Loader) (cache : Cache) (steps : List Step) : Cache :=
  steps.foldl (fun cache step => (step.perform c load cache).2) cache

/-- What a step has to answer if it finds one snapshot, or none because of an error. -/
def answer (c : Compiler) : Step → Except Error Snapshot → Answer
  | snapshot, found | reload, found => .snapshot found
  | entities, found => .entities (found.map Snapshot.entities)
  | fieldType name, found => .fieldType (found.map (·.metadata.fieldType name))
  | linkType name, found => .linkType (found.map (·.metadata.linkType name))
  | compile _, .ok s => .schema (Schema.compile c s)
  | compile _, .error e => .schema (.fail e)

variable {c : Compiler} {load : Loader} {cache : Cache}

/-- Every step gets one snapshot and answers from it. -/
theorem perform_eq (c : Compiler) (load : Loader) (cache : Cache) (step : Step) :
    step.perform c load cache =
      (step.answer c (cache.get load step.forces).1, (cache.get load step.forces).2) := by
  cases step with
  | compile forced =>
    have hforced : (compile forced).forces = forced := by cases forced <;> rfl
    rw [hforced, perform, Schema.compileCached]
    rcases cache.get load forced with ⟨_ | _, _⟩ <;> rfl
  | _ => rfl

theorem shows_perform (step : Step) (h : cache.Shows load) : (step.perform c load cache).2.Shows load := by
  rw [perform_eq]
  exact h.get _

/-- After any steps the cache shows the snapshot that was loaded last. -/
theorem shows_run (steps : List Step) (h : cache.Shows load) : (run c load cache steps).Shows load := by
  induction steps generalizing cache with
  | nil => exact h
  | cons step rest ih => exact ih (shows_perform step h)

/-- What a step has to keep of a cache, by the cache before it and what it answers and leaves. -/
structure Sound (c : Compiler) (load : Loader) (step : Step) (before : Cache) (outcome : Answer × Cache) : Prop where
  /-- The cache shows the snapshot of the last call that succeeded. -/
  shows : outcome.2.current = lastLoaded load outcome.2.loads
  /-- The loader is called once if the step asks for it or if no call has succeeded, else not at all. -/
  loads : outcome.2.loads =
    before.loads + if step.forces = true ∨ lastLoaded load before.loads = none then 1 else 0
  /-- A call that fails leaves the snapshot as it was. -/
  kept : ∀ e, load before.loads = .error e → outcome.2.current = before.current
  /-- The answer is read off the one snapshot that is current afterwards, or is the error of the one call that was made. -/
  answered : (∃ s, outcome.2.current = some s ∧ outcome.1 = step.answer c (.ok s)) ∨
    ∃ e, load before.loads = .error e ∧ outcome.2.loads = before.loads + 1 ∧ outcome.1 = step.answer c (.error e)

theorem Sound.of_shows (step : Step) (h : cache.Shows load) : Sound c load step cache (step.perform c load cache) := by
  refine ⟨shows_perform step h, ?_, ?_, ?_⟩ <;> rw [perform_eq]
  · exact h.loads_get _
  · exact fun e he => Cache.current_get_of_error he _
  · rcases Cache.get_found load step.forces cache with ⟨s, hs, hfound⟩ | ⟨e, he, hloads, hfound⟩
    · exact .inl ⟨s, hs, by rw [hfound]⟩
    · exact .inr ⟨e, he, hloads, by rw [hfound]⟩

/-- In every session over a cache that is empty at first, whatever was done before, every step is sound. -/
theorem sound_after_run (c : Compiler) (load : Loader) (before : List Step) (step : Step) :
    Sound c load step (run c load {} before) (step.perform c load (run c load {} before)) :=
  Sound.of_shows step (shows_run before (Cache.shows_empty load))

end Step

end EntitySchema
