import DataMonkey.Skip.Step

/- Insertion and deletion of a key cancel each other.

   `Restored move st st'` says that `st'` is the list `st` once more, in which the node at
   `a` now stands at `move a`: the same chain on every level, the same keys, payloads and
   heights, the same level and length.

     1. `Holds.restored` — two lists with the same nodes, up to their addresses, are
        restored;
     2. `skip_insert_delete` — after every session, insertion of an absent key followed by
        its deletion restores the list, and so does deletion of a stored key followed by
        its insertion at the height it had. -/
namespace DataMonkey.Skip

variable {P : Type}

/-- The list has the node `a`, with this key, payload and height. -/
structure StoredAt (st : State P) (a : Addr) (k : UInt32) (p : P) (t : Nat) : Prop where
  mem : ∃ c ∈ chainAt st 0, a ∈ c
  key : keyOf st.heap a = some k
  payload : payloadOf st.heap a = some p
  height : heightOf st.heap a = t

structure Restored (move : Addr → Addr) (st st' : State P) : Prop where
  chain : ∀ i < skipMax, ∃ c, chainAt st i = some c ∧ chainAt st' i = some (c.map move)
  inj : ∀ c ∈ chainAt st 0, ∀ a ∈ c, ∀ b ∈ c, move a = move b → a = b
  key : ∀ c ∈ chainAt st 0, ∀ a ∈ c, keyOf st'.heap (move a) = keyOf st.heap a
  payload : ∀ c ∈ chainAt st 0, ∀ a ∈ c, payloadOf st'.heap (move a) = payloadOf st.heap a
  height : ∀ c ∈ chainAt st 0, ∀ a ∈ c, heightOf st'.heap (move a) = heightOf st.heap a
  level : st'.sl.level = st.sl.level
  length : st'.sl.length = st.sl.length

/-- The address that `a` has once the node at `old` stands at `new`. -/
def relocate (old new a : Addr) : Addr := if a = old then new else a

/-! ## Lists with the same nodes at other addresses -/

def Tower.moved (move : Addr → Addr) (n : Tower P) : Tower P := { n with addr := move n.addr }

theorem map_moved_id (ns : List (Tower P)) : ns.map (Tower.moved id) = ns := by
  have hid : Tower.moved (P := P) id = id := funext fun _ => rfl
  rw [hid, List.map_id]

theorem onLevel_moved (move : Addr → Addr) (i : Nat) (ns : List (Tower P)) :
    onLevel i (ns.map (Tower.moved move)) = (onLevel i ns).map (Tower.moved move) :=
  List.filter_map ..

theorem topLevel_moved (move : Addr → Addr) (ns : List (Tower P)) :
    topLevel (ns.map (Tower.moved move)) = topLevel ns := by
  induction ns with
  | nil => rfl
  | cons n ns ih => rw [List.map_cons, topLevel_cons, topLevel_cons, ih]; rfl

theorem addr_moved (move : Addr → Addr) (ns : List (Tower P)) :
    (ns.map (Tower.moved move)).map Tower.addr = (ns.map Tower.addr).map move := by
  rw [List.map_map, List.map_map]
  rfl

theorem Holds.restored {move : Addr → Addr} {st st' : State P} {ns : List (Tower P)}
    (H : Holds st ns) (H' : Holds st' (ns.map (Tower.moved move))) : Restored move st st' := by
  have r := H.rep
  have r' := H'.rep
  have hbase : ∀ {c}, c ∈ chainAt st 0 → c = ns.map Tower.addr := by
    intro c hc
    rw [r.chainAt (by decide), r.onLevel_zero] at hc
    exact (Option.mem_some.mp hc).symm
  -- what can be read of a node at its old and at its new address
  have hread : ∀ {c}, c ∈ chainAt st 0 → ∀ a ∈ c, ∃ n ∈ ns, n.addr = a ∧
      Tower.moved move n ∈ ns.map (Tower.moved move) := by
    intro c hc a ha
    rw [hbase hc] at ha
    obtain ⟨n, hn, rfl⟩ := List.mem_map.mp ha
    exact ⟨n, hn, rfl, List.mem_map_of_mem hn⟩
  constructor
  case chain =>
    intro i hi
    refine ⟨(onLevel i ns).map Tower.addr, r.chainAt hi, ?_⟩
    rw [r'.chainAt hi, onLevel_moved, addr_moved]
  case inj =>
    intro c hc
    have hnd := (List.nodup_cons.mp r'.nodup).2
    rw [addr_moved, ← hbase hc] at hnd
    exact fun a ha b hb hab => List.inj_on_of_nodup_map hnd ha hb hab
  case key =>
    intro c hc a ha
    obtain ⟨n, hn, rfl, hn'⟩ := hread hc a ha
    rw [keyOf_of_shape (r.node n hn)]
    exact keyOf_of_shape (r'.node _ hn')
  case payload =>
    intro c hc a ha
    obtain ⟨n, hn, rfl, hn'⟩ := hread hc a ha
    rw [payloadOf_of_shape (r.node n hn)]
    exact payloadOf_of_shape (r'.node _ hn')
  case height =>
    intro c hc a ha
    obtain ⟨n, hn, rfl, hn'⟩ := hread hc a ha
    rw [r.heightOf hn]
    exact r'.heightOf hn'
  case level => rw [H'.level, H.level, topLevel_moved]
  case length => rw [H'.length, H.length, List.length_map]

/-! ## Where the key is -/

section Cut

variable {st : State P} {ns : List (Tower P)} {k : UInt32}

theorem cut_of_not_stored (r : Rep st.heap st.sl.header ns) (h : ¬ Stored st k) :
    ∃ pre post, ns = pre ++ post ∧ (∀ n ∈ pre, n.key < k) ∧ ∀ n ∈ post, k < n.key := by
  rcases split_cases r.sorted k with hcut | ⟨pre, x, post, rfl, -, hx, -⟩
  · exact hcut
  · exact absurd ((stored_iff r).mpr ⟨x, by simp, hx⟩) h

theorem cut_of_storedAt (r : Rep st.heap st.sl.header ns) {a : Addr} {p : P} {t : Nat}
    (h : StoredAt st a k p t) :
    ∃ pre post, ns = pre ++ ⟨a, k, p, t⟩ :: post ∧ (∀ n ∈ pre, n.key < k) ∧
      ∀ n ∈ post, k < n.key := by
  -- the node of the list at `a`
  obtain ⟨c, hc, ha⟩ := h.mem
  rw [r.chainAt (by decide), r.onLevel_zero, Option.mem_some] at hc
  rw [← hc] at ha
  obtain ⟨n, hn, rfl⟩ := List.mem_map.mp ha
  have hkey : n.key = k :=
    Option.some.inj ((keyOf_of_shape (r.node n hn)).symm.trans h.key)
  have hpay : n.payload = p :=
    Option.some.inj ((payloadOf_of_shape (r.node n hn)).symm.trans h.payload)
  have hheight : n.height = t := (r.heightOf hn).symm.trans h.height
  have heq : n = ⟨n.addr, k, p, t⟩ := by rw [← hkey, ← hpay, ← hheight]
  -- is the only one with its key
  rcases split_cases r.sorted k with ⟨pre, post, rfl, hpre, hpost⟩ |
    ⟨pre, x, post, rfl, hpre, hx, hpost⟩
  · exact absurd hkey (key_ne_of_cut hpre hpost n hn)
  · refine ⟨pre, post, ?_, hpre, hpost⟩
    have hnx : n = x := by
      rcases List.mem_append.mp hn with hm | hm
      · exact absurd hkey (UInt32.ne_of_lt (hpre n hm))
      · rcases List.mem_cons.mp hm with rfl | hm
        · rfl
        · exact absurd hkey (UInt32.ne_of_lt (hpost n hm)).symm
    rw [← heq, hnx]

/-- Moving one node leaves the others where they are. -/
theorem map_relocate {h : Heap P} {hdr : Addr} {pre post : List (Tower P)} {x : Tower P}
    (r : Rep h hdr (pre ++ x :: post)) (b : Addr) :
    (pre ++ x :: post).map (Tower.moved (relocate x.addr b)) =
      pre ++ { x with addr := b } :: post := by
  have hfix : ∀ ms : List (Tower P), (∀ n ∈ ms, n ∈ pre ++ post) →
      ms.map (Tower.moved (relocate x.addr b)) = ms := by
    intro ms hms
    rw [List.map_congr_left (g := id), List.map_id]
    intro n hn
    rw [Tower.moved, relocate, if_neg (r.addr_ne.2 n (hms n hn)), id_eq]
  have hx : Tower.moved (relocate x.addr b) x = { x with addr := b } := by
    rw [Tower.moved, relocate, if_pos rfl]
  rw [List.map_append, List.map_cons, hx, hfix pre fun n hn => List.mem_append_left _ hn,
    hfix post fun n hn => List.mem_append_right _ hn]

end Cut

/-! ## The calls -/

theorem insert_delete_restores {st : State P} {ns : List (Tower P)} (H : Holds st ns) {k : Key}
    (hk : ¬ Stored st k.val) (p : P) (t : Height) :
    ∃ st₁ st₂, skipInsert st k.val (some p) t = .ok (1, st₁) ∧
      skipDelete st₁ k.val = .ok (1, st₂) ∧ Restored id st st₂ := by
  obtain ⟨pre, post, rfl, hpre, hpost⟩ := cut_of_not_stored H.rep hk
  obtain ⟨st₁, hinsert, H₁, -⟩ := skipInsert_fresh H hpre hpost k.property p t
  obtain ⟨st₂, hdelete, H₂, -⟩ := skipDelete_stored H₁ hpre rfl hpost k.property
  refine ⟨st₁, st₂, hinsert, hdelete, H.restored ?_⟩
  rw [map_moved_id]
  exact H₂

theorem delete_insert_restores {st : State P} {ns : List (Tower P)} (H : Holds st ns) {a : Addr}
    {k : Key} {p : P} {t : Height} (h : StoredAt st a k.val p t.val) :
    ∃ st₁ st₂ b, skipDelete st k.val = .ok (1, st₁) ∧
      skipInsert st₁ k.val (some p) t = .ok (1, st₂) ∧ Restored (relocate a b) st st₂ := by
  obtain ⟨pre, post, rfl, hpre, hpost⟩ := cut_of_storedAt H.rep h
  obtain ⟨st₁, hdelete, H₁, -⟩ := skipDelete_stored H hpre rfl hpost k.property
  obtain ⟨st₂, hinsert, H₂, -⟩ := skipInsert_fresh H₁ hpre hpost k.property p t
  refine ⟨st₁, st₂, st₁.heap.next, hdelete, hinsert, H.restored ?_⟩
  rw [map_relocate H.rep]
  exact H₂

/-- After every session, insertion of an absent key at any height and its deletion restore
    the list as it was; deletion of a stored key and its insertion with the payload and the
    height of its node restore it with that node at another address. -/
theorem skip_insert_delete (f : FreeFunc) (calls : List (Call P)) :
    ∃ os st, session f calls = .ok (os, st) ∧
      (∀ (k : Key) (p : P) (t : Height), ¬ Stored st k.val →
        ∃ st₁ st₂, skipInsert st k.val (some p) t = .ok (1, st₁) ∧
          skipDelete st₁ k.val = .ok (1, st₂) ∧ Restored id st st₂) ∧
      ∀ (a : Addr) (k : Key) (p : P) (t : Height), StoredAt st a k.val p t.val →
        ∃ st₁ st₂ b, skipDelete st k.val = .ok (1, st₁) ∧
          skipInsert st₁ k.val (some p) t = .ok (1, st₂) ∧ Restored (relocate a b) st st₂ := by
  obtain ⟨os, st, ns, hrun, H, -⟩ := session_spec f calls
  refine ⟨os, st, hrun, fun k p t hk => ?_, fun a k p t h => ?_⟩
  · exact insert_delete_restores H.toHolds hk p t
  · exact delete_insert_restores H.toHolds h

end DataMonkey.Skip
