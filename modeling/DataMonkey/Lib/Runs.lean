import Mathlib.Data.List.Induction

/- Runs of a fallible step function.

   A machine is a step function `S → C → Except E (O × S)`: a call `c` in state
   `s` either replies and moves on, or faults and ends the run. Nothing here
   knows what the machine computes. The rules below are the only inductions over
   runs the rest of the development makes:

     1. `run_total` — a step that never faults from an invariant and keeps it
        gives runs that never fault;
     2. `Along.always`, `Always.along` — where steps may fault, an invariant of all states
        of a run, and the calls that keep it;
     3. `cost_potential` — the cost of a run from a potential;
     4. `Simulates.run`, `run_runSpec` — a step simulation against a total specification
        machine lifts to runs, replies included;
     5. `foldlM_range'`, `countWhile_spec` — the two counting loops of C;
     6. `forEachM_eq`, `forEach_append` — a loop that a step may end, without its faults, and
        over a list in two parts. -/
namespace Runs

variable {S C O E : Type}

/-- Binding a returned value runs the continuation. -/
@[simp] theorem ok_bind {α β : Type} (a : α) (f : α → Except E β) :
    (Except.ok a >>= f) = f a := rfl

@[simp] theorem error_bind {α β : Type} (e : E) (f : α → Except E β) :
    (Except.error e >>= f) = .error e := rfl

theorem bind_eq_ok {α β : Type} {x : Except E α} {f : α → Except E β} {b : β} :
    (x >>= f) = .ok b ↔ ∃ a, x = .ok a ∧ f a = .ok b := by
  cases x with
  | error e => simp
  | ok a => simp

/-- A call returns one reply and one state. -/
theorem ok_pair_inj {o o' : O} {s s' : S}
    (h : (Except.ok (o, s) : Except E (O × S)) = .ok (o', s')) : o = o' ∧ s = s' :=
  Prod.mk.inj (Except.ok.inj h)

/-- Make the calls in order, collecting the replies; the first fault ends the run. -/
def run (step : S → C → Except E (O × S)) : S → List C → Except E (List O × S)
  | s, [] => .ok ([], s)
  | s, c :: cs => do
    let (o, s') ← step s c
    let (os, s'') ← run step s' cs
    .ok (o :: os, s'')

variable {step : S → C → Except E (O × S)}

theorem run_cons_ok {s : S} {c : C} {cs : List C} {os : List O} {s'' : S} :
    run step s (c :: cs) = .ok (os, s'') ↔
      ∃ o s' rest, step s c = .ok (o, s') ∧ run step s' cs = .ok (rest, s'') ∧ os = o :: rest := by
  refine ⟨?_, ?_⟩
  · intro h
    obtain ⟨⟨o, s'⟩, h₁, h⟩ := bind_eq_ok.mp h
    obtain ⟨⟨rest, t⟩, h₂, h⟩ := bind_eq_ok.mp h
    obtain ⟨rfl, rfl⟩ := ok_pair_inj h
    exact ⟨o, s', rest, h₁, h₂, rfl⟩
  · intro h
    obtain ⟨o, s', rest, h₁, h₂, rfl⟩ := h
    simp only [run, h₁, h₂, ok_bind]

/-- A run can be cut anywhere. -/
theorem run_append_ok {s : S} {cs ds : List C} {os : List O} {s'' : S} :
    run step s (cs ++ ds) = .ok (os, s'') ↔
      ∃ ps s' qs, run step s cs = .ok (ps, s') ∧ run step s' ds = .ok (qs, s'') ∧
        os = ps ++ qs := by
  induction cs generalizing s os with
  | nil =>
    refine ⟨?_, ?_⟩
    · intro h
      exact ⟨[], s, os, rfl, h, rfl⟩
    · intro h
      obtain ⟨ps, s', qs, h₁, h₂, rfl⟩ := h
      obtain ⟨rfl, rfl⟩ := ok_pair_inj h₁
      exact h₂
  | cons c cs ih =>
    refine ⟨?_, ?_⟩
    · intro h
      obtain ⟨o, t, rest, h₁, h₂, rfl⟩ := run_cons_ok.mp h
      obtain ⟨ps, s', qs, h₃, h₄, rfl⟩ := ih.mp h₂
      exact ⟨o :: ps, s', qs, run_cons_ok.mpr ⟨o, t, ps, h₁, h₃, rfl⟩, h₄, rfl⟩
    · intro h
      obtain ⟨ps, s', qs, h₁, h₂, rfl⟩ := h
      obtain ⟨o, t, rest, h₃, h₄, rfl⟩ := run_cons_ok.mp h₁
      exact run_cons_ok.mpr ⟨o, t, rest ++ qs, h₃, ih.mpr ⟨rest, s', qs, h₄, h₂, rfl⟩, rfl⟩

theorem run_singleton_ok {s s' : S} {c : C} {os : List O} :
    run step s [c] = .ok (os, s') ↔ ∃ o, step s c = .ok (o, s') ∧ os = [o] := by
  refine ⟨?_, ?_⟩
  · intro h
    obtain ⟨o, t, rest, h₁, h₂, rfl⟩ := run_cons_ok.mp h
    obtain ⟨rfl, rfl⟩ := ok_pair_inj h₂
    exact ⟨o, h₁, rfl⟩
  · intro h
    obtain ⟨o, h, rfl⟩ := h
    exact run_cons_ok.mpr ⟨o, s', [], h, rfl, rfl⟩

/-- A relation between the calls made so far and the state under which no step faults,
    and which every step keeps: no run faults, and every run ends in it. -/
theorem run_total (step : S → C → Except E (O × S)) (Inv : List C → S → Prop)
    (hstep : ∀ past s c, Inv past s → ∃ o s', step s c = .ok (o, s') ∧ Inv (past ++ [c]) s') :
    ∀ (cs past : List C) (s : S), Inv past s →
      ∃ os s', run step s cs = .ok (os, s') ∧ Inv (past ++ cs) s'
  | [], past, s, h => ⟨[], s, rfl, by rw [List.append_nil]; exact h⟩
  | c :: cs, past, s, h => by
    obtain ⟨o, t, h₁, ht⟩ := hstep past s c h
    obtain ⟨os, s', h₂, hs'⟩ := run_total step Inv hstep cs (past ++ [c]) t ht
    refine ⟨o :: os, s', run_cons_ok.mpr ⟨o, t, os, h₁, h₂, rfl⟩, ?_⟩
    rw [List.append_cons]
    exact hs'

/-- What every step with an allowed reply leaves behind is left by a run of such replies. -/
theorem run_replies {P : S → Prop} {Q : O → Prop}
    (hstep : ∀ s c o s', P s → Q o → step s c = .ok (o, s') → P s') :
    ∀ {cs : List C} {s s' : S} {os : List O}, P s → run step s cs = .ok (os, s') →
      (∀ o ∈ os, Q o) → P s'
  | [], s, s', os, h, hr, _ => by
    rw [← (ok_pair_inj hr).2]
    exact h
  | c :: cs, s, s', os, h, hr, hos => by
    obtain ⟨o, t, rest, h₁, h₂, rfl⟩ := run_cons_ok.mp hr
    obtain ⟨ho, hrest⟩ := List.forall_mem_cons.mp hos
    exact run_replies hstep (hstep s c o t h ho h₁) h₂ hrest

/-! ## Every state of a run, every call of a run -/

/-- `P` holds in every state that the run passes through. -/
def Always (step : S → C → Except E (O × S)) (P : S → Prop) (s : S) (cs : List C) : Prop :=
  ∀ past, past <+: cs → ∀ os s', run step s past = .ok (os, s') → P s'

/-- Every call of the run is one that the state it is made in allows. -/
def Along (step : S → C → Except E (O × S)) (Q : S → C → Prop) (s : S) (cs : List C) : Prop :=
  ∀ past c, past ++ [c] <+: cs → ∀ os s', run step s past = .ok (os, s') → Q s' c

/-- An invariant that every allowed call keeps. -/
theorem Along.always {P : S → Prop} {Q : S → C → Prop} {s : S} {cs : List C}
    (hstep : ∀ s c o s', P s → Q s c → step s c = .ok (o, s') → P s')
    (h₀ : P s) (h : Along step Q s cs) : Always step P s cs := by
  intro past
  induction past using List.reverseRecOn with
  | nil =>
    intro _ os s' hr
    rw [← (ok_pair_inj hr).2]
    exact h₀
  | append_singleton past c ih =>
    intro hpre os s' hr
    -- the last call is made in the state that the others lead to
    obtain ⟨ps, t, qs, hr, hc, -⟩ := run_append_ok.mp hr
    obtain ⟨o, hc, -⟩ := run_singleton_ok.mp hc
    have ht : P t := ih ((List.prefix_append past [c]).trans hpre) ps t hr
    exact hstep t c o s' ht (h past c hpre ps t hr) hc

/-- The state now, and those that the first call leads to. -/
theorem always_cons {P : S → Prop} {s : S} {c : C} {cs : List C} :
    Always step P s (c :: cs) ↔
      P s ∧ ∀ o s', step s c = .ok (o, s') → Always step P s' cs := by
  refine ⟨fun h => ⟨h [] (List.nil_prefix) [] s rfl, ?_⟩, fun h past hpre os s' hr => ?_⟩
  · intro o s' hc past hpre os s'' hr
    exact h (c :: past) ((List.prefix_cons_inj c).mpr hpre) (o :: os) s''
      (run_cons_ok.mpr ⟨o, s', os, hc, hr, rfl⟩)
  · obtain ⟨hnow, hnext⟩ := h
    cases past with
    | nil =>
      rw [← (ok_pair_inj hr).2]
      exact hnow
    | cons d past =>
      obtain ⟨rfl, hpre'⟩ := List.cons_prefix_cons.mp hpre
      obtain ⟨o, t, rest, hc, hr', -⟩ := run_cons_ok.mp hr
      exact hnext o t hc past hpre' rest s' hr'

theorem always_nil {P : S → Prop} {s : S} : Always step P s [] ↔ P s := by
  refine ⟨fun h => h [] List.nil_prefix [] s rfl, fun h past hpre os s' hr => ?_⟩
  rw [List.prefix_nil.mp hpre] at hr
  rw [← (ok_pair_inj hr).2]
  exact h

/-- Conversely, where only allowed calls keep it, in a run that gets to its end. -/
theorem Always.along {P : S → Prop} {Q : S → C → Prop} {s : S} {cs : List C}
    (hstep : ∀ s c o s', P s → P s' → step s c = .ok (o, s') → Q s c)
    {r : List O × S} (hend : run step s cs = .ok r) (h : Always step P s cs) :
    Along step Q s cs := by
  intro past c hpre ps t hr
  obtain ⟨rest, rfl⟩ := hpre
  -- a run that gets to its end returns from each of its calls
  obtain ⟨os, s', -, hpast, -, -⟩ := run_append_ok.mp hend
  obtain ⟨ps', t', qs, hr', hc, -⟩ := run_append_ok.mp hpast
  obtain ⟨-, rfl⟩ := ok_pair_inj (hr.symm.trans hr')
  obtain ⟨o, hc, -⟩ := run_singleton_ok.mp hc
  have ht : P t := h past ⟨[c] ++ rest, by rw [List.append_assoc]⟩ ps t hr
  have hs' : P s' := h (past ++ [c]) (List.prefix_append _ rest) os s' hpast
  exact hstep t c o s' ht hs' hc

/-! ## The cost of a run -/

/-- The sum of what its calls cost, each in the state it is made in. -/
def cost (step : S → C → Except E (O × S)) (work : S → C → Nat) : S → List C → Nat
  | _, [] => 0
  | s, c :: cs =>
    work s c +
      match step s c with
      | .ok (_, s') => cost step work s' cs
      | .error _ => 0

theorem cost_cons {work : S → C → Nat} {s s' : S} {c : C} {o : O} (cs : List C)
    (h : step s c = .ok (o, s')) :
    cost step work s (c :: cs) = work s c + cost step work s' cs := by
  simp only [cost, h]

/-- A potential that every allowed call raises by what it costs has paid for the run. -/
theorem cost_potential (work : S → C → Nat) (Φ : S → Nat) {P : S → Prop} {Q : C → Prop}
    (hstep : ∀ s c o s', P s → Q c → step s c = .ok (o, s') →
      work s c + Φ s = Φ s' ∧ P s') :
    ∀ {cs : List C} {s s' : S} {os : List O}, P s → (∀ c ∈ cs, Q c) →
      run step s cs = .ok (os, s') → cost step work s cs + Φ s = Φ s'
  | [], s, s', os, _, _, hr => by
    obtain ⟨-, rfl⟩ := ok_pair_inj hr
    exact Nat.zero_add _
  | c :: cs, s, s', os, h, hq, hr => by
    obtain ⟨hc, hcs⟩ := List.forall_mem_cons.mp hq
    obtain ⟨o, t, rest, hrun, hrest, -⟩ := run_cons_ok.mp hr
    obtain ⟨hpay, ht⟩ := hstep s c o t h hc hrun
    have ih := cost_potential work Φ hstep ht hcs hrest
    rw [cost_cons _ hrun]
    omega

/-! ## Simulation by a total specification machine -/

variable {T D : Type}

/-- The replies and the final state of a specification machine. -/
def runSpec (spec : T → D → O × T) : T → List D → List O × T
  | t, [] => ([], t)
  | t, d :: ds =>
    let (o, t') := spec t d
    let (os, t'') := runSpec spec t' ds
    (o :: os, t'')

/-- The replies to the calls that the specification knows. -/
def answers (label : C → Option D) : List C → List O → List O
  | c :: cs, o :: os =>
    match label c with
    | none => answers label cs os
    | some _ => o :: answers label cs os
  | _, _ => []

/-- `R` is a simulation: from related states a call never faults; a call that the
    specification does not know leaves its state alone, any other gets its reply. -/
def Simulates (step : S → C → Except E (O × S)) (spec : T → D → O × T) (label : C → Option D)
    (R : S → T → Prop) : Prop :=
  ∀ s t c, R s t → ∃ o s', step s c = .ok (o, s') ∧
    match label c with
    | none => R s' t
    | some d => o = (spec t d).1 ∧ R s' (spec t d).2

/-- A step simulation lifts to runs. -/
theorem Simulates.run {spec : T → D → O × T} {label : C → Option D} {R : S → T → Prop}
    (hsim : Simulates step spec label R) :
    ∀ (cs : List C) (s : S) (t : T), R s t →
      ∃ os s', run step s cs = .ok (os, s') ∧
        answers label cs os = (runSpec spec t (cs.filterMap label)).1 ∧
        R s' (runSpec spec t (cs.filterMap label)).2
  | [], s, t, h => ⟨[], s, rfl, rfl, h⟩
  | c :: cs, s, t, h => by
    obtain ⟨o, s', h₁, ho⟩ := hsim s t c h
    cases hl : label c with
    | none =>
      rw [hl] at ho
      obtain ⟨os, s'', h₂, hos, hR⟩ := Simulates.run hsim cs s' t ho
      refine ⟨o :: os, s'', run_cons_ok.mpr ⟨o, s', os, h₁, h₂, rfl⟩, ?_, ?_⟩
      · simp only [answers, hl, List.filterMap_cons, hos]
      · rw [List.filterMap_cons, hl]
        exact hR
    | some d =>
      rw [hl] at ho
      obtain ⟨os, s'', h₂, hos, hR⟩ := Simulates.run hsim cs s' (spec t d).2 ho.2
      refine ⟨o :: os, s'', run_cons_ok.mpr ⟨o, s', os, h₁, h₂, rfl⟩, ?_, ?_⟩
      · simp only [answers, hl, List.filterMap_cons, runSpec, hos, ho.1]
      · rw [List.filterMap_cons, hl]
        exact hR

/-- The same for a specification that knows every call and predicts every reply. -/
theorem run_runSpec {spec : T → C → O × T} {R : S → T → Prop}
    (hsim : ∀ s t c, R s t → ∃ s', step s c = .ok ((spec t c).1, s') ∧ R s' (spec t c).2) :
    ∀ (cs : List C) (s : S) (t : T), R s t →
      ∃ s', run step s cs = .ok ((runSpec spec t cs).1, s') ∧ R s' (runSpec spec t cs).2
  | [], s, _, h => ⟨s, rfl, h⟩
  | c :: cs, s, t, h => by
    obtain ⟨s', hstep, h'⟩ := hsim s t c h
    obtain ⟨s'', hrun, h''⟩ := run_runSpec hsim cs s' (spec t c).2 h'
    exact ⟨s'', run_cons_ok.mpr ⟨_, s', _, hstep, hrun, rfl⟩, h''⟩

/-! ## Counting loops -/

/-- The rule of `for (i = m; i < m + n; i++)`: a body that succeeds from the invariant
    at `i` and establishes it at `i + 1` runs to the invariant at `m + n`. -/
theorem foldlM_range' {σ : Type} (body : σ → Nat → Except E σ) (Inv : Nat → σ → Prop) :
    ∀ (n m : Nat) (s : σ), Inv m s →
      (∀ i s, m ≤ i → i < m + n → Inv i s → ∃ s', body s i = .ok s' ∧ Inv (i + 1) s') →
      ∃ s', (List.range' m n).foldlM body s = .ok s' ∧ Inv (m + n) s'
  | 0, m, s, h, _ => ⟨s, rfl, h⟩
  | n + 1, m, s, h, hb => by
    obtain ⟨s₁, h₁, hs₁⟩ := hb m s (Nat.le_refl m) (by omega) h
    obtain ⟨s', h₂, hs'⟩ := foldlM_range' body Inv n (m + 1) s₁ hs₁
      (fun i s hi hlt => hb i s (by omega) (by omega))
    refine ⟨s', ?_, by rw [show m + (n + 1) = m + 1 + n by omega]; exact hs'⟩
    rw [List.range'_succ, List.foldlM_cons, h₁]
    exact h₂

/-- `while (i < m && test(i)) i++`, with `n = m - i` rounds left at most. -/
def countWhile (test : Nat → Except E Bool) : Nat → Nat → Except E Nat
  | 0, i => .ok i
  | n + 1, i => do if ← test i then countWhile test n (i + 1) else .ok i

/-- The loop stops at the first index of the range that fails the test, or at its end. -/
theorem countWhile_spec (test : Nat → Except E Bool) (P : Nat → Prop) [DecidablePred P] :
    ∀ (n i : Nat), (∀ j, i ≤ j → j < i + n → test j = .ok (decide (P j))) →
      ∃ j, countWhile test n i = .ok j ∧ i ≤ j ∧ j ≤ i + n ∧
        (∀ l, i ≤ l → l < j → P l) ∧ (j < i + n → ¬ P j)
  | 0, i, _ => ⟨i, rfl, Nat.le_refl i, Nat.le_refl i, fun l h₁ h₂ => by omega, fun h => by omega⟩
  | n + 1, i, ht => by
    have hi := ht i (Nat.le_refl i) (by omega)
    by_cases hp : P i
    · obtain ⟨j, hrun, h₁, h₂, hpass, hstop⟩ := countWhile_spec test P n (i + 1)
        (fun j h₁ h₂ => ht j (by omega) (by omega))
      refine ⟨j, ?_, by omega, by omega, ?_, fun h => hstop (by omega)⟩
      · rw [decide_eq_true hp] at hi
        simp only [countWhile, hi, ok_bind, if_true, hrun]
      · intro l hl hlj
        by_cases hli : l = i
        · rw [hli]; exact hp
        · exact hpass l (by omega) hlj
    · refine ⟨i, ?_, Nat.le_refl i, by omega, fun l h₁ h₂ => by omega, fun _ => hp⟩
      rw [decide_eq_false hp] at hi
      simp only [countWhile, hi, ok_bind]
      rfl

/-! ## Loops that a step may end -/

/-- `for (c in cs) if (!step(c)) return false;`, over a state. -/
def forEach (step : S → C → Bool × S) : S → List C → Bool × S
  | s, [] => (true, s)
  | s, c :: cs =>
    let (go, s') := step s c
    if go then forEach step s' cs else (false, s')

/-- The same loop with steps that may fault. -/
def forEachM (step : S → C → Except E (Bool × S)) : S → List C → Except E (Bool × S)
  | s, [] => .ok (true, s)
  | s, c :: cs => do
    let (go, s') ← step s c
    if go then forEachM step s' cs else .ok (false, s')

theorem forEach_cons (step : S → C → Bool × S) (s : S) (c : C) (cs : List C) :
    forEach step s (c :: cs) =
      if (step s c).1 then forEach step (step s c).2 cs else (false, (step s c).2) := rfl

theorem forEach_append (step : S → C → Bool × S) (s : S) (cs ds : List C) :
    forEach step s (cs ++ ds) =
      if (forEach step s cs).1 then forEach step (forEach step s cs).2 ds
      else forEach step s cs := by
  induction cs generalizing s with
  | nil => rfl
  | cons c cs ih =>
    rw [List.cons_append, forEach_cons, forEach_cons, ih]
    cases (step s c).1 with
    | true => rfl
    | false => rfl

/-- Steps that do not fault from an invariant, and keep it, make a loop that does not fault. -/
theorem forEachM_eq {stepM : S → D → Except E (Bool × S)} {step : S → C → Bool × S} (f : D → C)
    (Inv : S → Prop) : ∀ (ds : List D) (s : S), Inv s →
    (∀ d ∈ ds, ∀ s, Inv s → stepM s d = .ok (step s (f d)) ∧ Inv (step s (f d)).2) →
    forEachM stepM s ds = .ok (forEach step s (ds.map f)) ∧ Inv (forEach step s (ds.map f)).2
  | [], _, h, _ => ⟨rfl, h⟩
  | d :: ds, s, h, hstep => by
    obtain ⟨hrun, hinv⟩ := hstep d List.mem_cons_self s h
    rw [forEachM, hrun, List.map_cons, forEach_cons]
    cases hgo : (step s (f d)).1 with
    | true =>
      obtain ⟨hrest, hinv'⟩ := forEachM_eq f Inv ds (step s (f d)).2 hinv
        (fun e he t ht => hstep e (List.mem_cons_of_mem d he) t ht)
      simp only [ok_bind, hgo, if_true]
      exact ⟨hrest, hinv'⟩
    | false =>
      simp only [ok_bind, hgo, Bool.false_eq_true, if_false]
      exact ⟨trivial, hinv⟩

end Runs
