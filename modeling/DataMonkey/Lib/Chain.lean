import DataMonkey.Lib.Runs

/- Singly linked chains read through a fallible link function.

   `link a` reads the successor field of `a`: a fault, the null pointer `none`, or the
   next address. `Seg link l e` says that the addresses of `l` are linked in order and
   that the last of them points to `e`. The splice, unlink and append rules are what
   pointer surgery does to such a segment; `walk` is the loop
   `while (x->next && go(x->next)) x = x->next` and `walk_spec` where it stops. -/
namespace Chain

variable {A E : Type}

/-- What points into the segment: its first address, or `e` if it is empty. -/
def first : List A → Option A → Option A
  | [], e => e
  | a :: _, _ => some a

theorem first_none (l : List A) : first l none = l.head? := by
  cases l <;> rfl

/-- The addresses of `l` are linked in order, the last one pointing to `e`. -/
def Seg (link : A → Except E (Option A)) : List A → Option A → Prop
  | [], _ => True
  | a :: l, e => link a = .ok (first l e) ∧ Seg link l e

theorem first_append (l₁ l₂ : List A) (e : Option A) :
    first (l₁ ++ l₂) e = first l₁ (first l₂ e) := by
  cases l₁ <;> rfl

theorem seg_append {link : A → Except E (Option A)} {l₁ l₂ : List A} {e : Option A} :
    Seg link (l₁ ++ l₂) e ↔ Seg link l₁ (first l₂ e) ∧ Seg link l₂ e := by
  induction l₁ with
  | nil => simp [Seg]
  | cons a l ih => simp only [List.cons_append, Seg, ih, first_append, and_assoc]

/-- Only the links of the segment's own addresses matter. -/
theorem Seg.congr {link link' : A → Except E (Option A)} {l : List A} {e : Option A}
    (h : Seg link l e) (heq : ∀ a ∈ l, link' a = link a) : Seg link' l e := by
  induction l with
  | nil => trivial
  | cons a l ih =>
    refine ⟨?_, ih h.2 (fun b hb => heq b (List.mem_cons_of_mem a hb))⟩
    rw [heq a List.mem_cons_self]
    exact h.1

/-- The link at a split of the segment. -/
theorem Seg.link_at {link : A → Except E (Option A)} {l₁ l₂ : List A} {p : A} {e : Option A}
    (h : Seg link (l₁ ++ p :: l₂) e) : link p = .ok (first l₂ e) :=
  (seg_append.mp h).2.1

/-- Putting `x` after `p`: `p` points to `x`, `x` to what `p` pointed to. -/
theorem Seg.splice {link link' : A → Except E (Option A)} {l₁ l₂ : List A} {p x : A}
    {e : Option A} (h : Seg link (l₁ ++ p :: l₂) e) (hp : link' p = .ok (some x))
    (hx : link' x = .ok (first l₂ e)) (hrest : ∀ a ∈ l₁ ++ l₂, link' a = link a) :
    Seg link' (l₁ ++ p :: x :: l₂) e := by
  obtain ⟨h₁, -, h₂⟩ := seg_append.mp h
  have h₁' : Seg link' l₁ (some p) :=
    h₁.congr (fun a ha => hrest a (List.mem_append_left _ ha))
  have h₂' : Seg link' l₂ e := h₂.congr (fun a ha => hrest a (List.mem_append_right _ ha))
  exact seg_append.mpr ⟨h₁', hp, hx, h₂'⟩

/-- Taking `x` out after `p`: `p` points to what `x` pointed to. -/
theorem Seg.unlink {link link' : A → Except E (Option A)} {l₁ l₂ : List A} {p x : A}
    {e : Option A} (h : Seg link (l₁ ++ p :: x :: l₂) e) (hp : link' p = .ok (first l₂ e))
    (hrest : ∀ a ∈ l₁ ++ l₂, link' a = link a) : Seg link' (l₁ ++ p :: l₂) e := by
  obtain ⟨h₁, -, -, h₂⟩ := seg_append.mp h
  have h₁' : Seg link' l₁ (some p) :=
    h₁.congr (fun a ha => hrest a (List.mem_append_left _ ha))
  have h₂' : Seg link' l₂ e := h₂.congr (fun a ha => hrest a (List.mem_append_right _ ha))
  exact seg_append.mpr ⟨h₁', hp, h₂'⟩

/-! ## Walking a chain -/

/-- `while (x->next && go(x->next)) x = x->next`, for at most `fuel` tests; running
    out of them is the fault `stuck`. -/
def walk (link : A → Except E (Option A)) (go : A → Except E Bool) (stuck : E) :
    Nat → A → Except E A
  | 0, _ => .error stuck
  | fuel + 1, x => do
    match ← link x with
    | none => .ok x
    | some y => if ← go y then walk link go stuck fuel y else .ok x

/-- The walk passes every address that `go` accepts and stops on the last of them. -/
theorem walk_spec (link : A → Except E (Option A)) (go : A → Except E Bool) (stuck : E) :
    ∀ (fuel : Nat) (x : A) (pass stop : List A), Seg link (x :: (pass ++ stop)) none →
      (∀ a ∈ pass, go a = .ok true) → (∀ a, stop.head? = some a → go a = .ok false) →
      pass.length < fuel →
      walk link go stuck fuel x = .ok ((x :: pass).getLast (List.cons_ne_nil x pass))
  | 0, _, _, _, _, _, _, hf => absurd hf (Nat.not_lt_zero _)
  | fuel + 1, x, [], stop, hs, _, hstop, _ => by
    -- nothing to pass: the end of the chain or the first rejected address stops the walk
    have hx : link x = .ok stop.head? := by rw [← first_none]; exact hs.1
    cases hh : stop.head? with
    | none => simp [walk, hx, hh]
    | some y => simp [walk, hx, hh, hstop y hh]
  | fuel + 1, x, y :: pass, stop, hs, hgo, hstop, hf => by
    have hx : link x = .ok (some y) := hs.1
    have hy : go y = .ok true := hgo y List.mem_cons_self
    have ih := walk_spec link go stuck fuel y pass stop hs.2
      (fun a ha => hgo a (List.mem_cons_of_mem y ha)) hstop (by simpa using hf)
    simp only [walk, hx, hy, Runs.ok_bind, if_true, ih]
    rfl

/-! ## Reading a whole chain -/

/-- The addresses met by following the links from `p`, or `none` when a link faults or
    `fuel` addresses do not reach the end. -/
def collect (link : A → Except E (Option A)) : Nat → Option A → Option (List A)
  | _, none => some []
  | 0, some _ => none
  | fuel + 1, some a =>
    match link a with
    | .error _ => none
    | .ok p => (collect link fuel p).map (a :: ·)

theorem collect_spec {link : A → Except E (Option A)} :
    ∀ (fuel : Nat) (l : List A), Seg link l none → l.length ≤ fuel →
      collect link fuel l.head? = some l
  | 0, [], _, _ => rfl
  | _ + 1, [], _, _ => rfl
  | 0, _ :: _, _, hf => absurd hf (by simp)
  | fuel + 1, a :: l, hs, hf => by
    have ih := collect_spec fuel l hs.2 (by simpa using hf)
    have ha : link a = .ok l.head? := by rw [← first_none]; exact hs.1
    simp only [List.head?_cons, collect, ha, ih, Option.map_some]

end Chain
