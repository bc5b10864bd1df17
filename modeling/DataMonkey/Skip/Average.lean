import DataMonkey.Skip.Path
import DataMonkey.Skip.Random

/- What a skip list costs on average, in time and in space.

   A session is any list of calls that was fixed without a look at the draws, and every call of
   it has draws of its own for `random_level`. Which keys are stored at its end does not depend
   on them, and neither does which of the calls built the tower of a key (`origins`): an
   insertion over a stored key keeps the tower, and a deletion takes it away. So the heights of
   the towers are independent draws, one for each key.

     1. `Effect.origins` — what a call does to the origins of the towers;
     2. `session_towers` — the towers after a session, by rising keys;
     3. `skip_search_average` — the loop tests of a search;
     4. `skip_space_average` — the forward slots of the nodes. -/
namespace DataMonkey.Skip

open Records
open scoped BigOperators

variable {P ι : Type}

/-- The call with the height that is drawn for it. -/
def Call.draw (t : Height) : Call P → Call P
  | .insert k p _ => .insert k p t
  | .delete k => .delete k
  | .search k => .search k
  | .fingerSearch k => .fingerSearch k
  | .length => .length

/-- The calls of a session, each with the name of its draws. -/
def drawn (H : ι → Height) (calls : List (ι × Call P)) : List (Call P) :=
  calls.map fun c => c.2.draw (H c.1)

/-- The stored keys, each with the draws of the call that built its tower. -/
def originStep (os : List (Key × ι)) (c : ι × Call P) : List (Key × ι) :=
  match c.2 with
  | .insert k _ _ => if k ∈ os.map Prod.fst then os else (k, c.1) :: os
  | .delete k => os.filter fun o => o.1 ≠ k
  | .search _ | .fingerSearch _ | .length => os

def origins (calls : List (ι × Call P)) : List (Key × ι) := calls.foldl originStep []

/-- The keys and heights of nodes. -/
def towers (ns : List (Tower P)) : List (UInt32 × Nat) := ns.map fun n => (n.key, n.height)

/-- The tower that a call builds. -/
def built (H : ι → Height) (o : Key × ι) : UInt32 × Nat := (o.1.val, (H o.2).val)

/-! ## Origins -/

theorem towers_append (ms ns : List (Tower P)) : towers (ms ++ ns) = towers ms ++ towers ns :=
  List.map_append

theorem towers_cons (n : Tower P) (ns : List (Tower P)) :
    towers (n :: ns) = (n.key, n.height) :: towers ns := rfl

section Origins

variable {f : FreeFunc} {H : ι → Height} {ns ns' : List (Tower P)} {os : List (Key × ι)}

theorem key_mem_origins (hperm : (towers ns).Perm (os.map (built H))) (k : Key) :
    k ∈ os.map Prod.fst ↔ ∃ n ∈ ns, n.key = k.val := by
  have hkeys : (ns.map Tower.key).Perm (os.map fun o => o.1.val) := by
    have hfst := hperm.map Prod.fst
    rwa [towers, List.map_map, List.map_map] at hfst
  refine ⟨fun h => ?_, fun h => ?_⟩
  · obtain ⟨o, ho, rfl⟩ := List.mem_map.mp h
    exact List.mem_map.mp (hkeys.mem_iff.mpr (List.mem_map.mpr ⟨o, ho, rfl⟩))
  · obtain ⟨n, hn, hkey⟩ := h
    obtain ⟨o, ho, he⟩ := List.mem_map.mp (hkeys.mem_iff.mp (List.mem_map.mpr ⟨n, hn, rfl⟩))
    exact List.mem_map.mpr ⟨o, ho, Subtype.ext (he.trans hkey)⟩

/-- The towers without those of a key. -/
theorem towers_filter (pre xs post : List (Tower P)) {k : UInt32} (hpre : ∀ n ∈ pre, n.key ≠ k)
    (hxs : ∀ n ∈ xs, n.key = k) (hpost : ∀ n ∈ post, n.key ≠ k) :
    (towers (pre ++ xs ++ post)).filter (fun d => d.1 ≠ k) = towers (pre ++ post) := by
  have hkeep : ∀ {ms : List (Tower P)}, (∀ n ∈ ms, n.key ≠ k) →
      (towers ms).filter (fun d => d.1 ≠ k) = towers ms := by
    intro ms hms
    apply List.filter_eq_self.mpr
    intro d hd
    obtain ⟨n, hn, rfl⟩ := List.mem_map.mp hd
    exact decide_eq_true (hms n hn)
  have hdrop : (towers xs).filter (fun d => d.1 ≠ k) = [] := by
    apply List.filter_eq_nil_iff.mpr
    intro d hd
    obtain ⟨n, hn, rfl⟩ := List.mem_map.mp hd
    simp [hxs n hn]
  rw [towers_append, towers_append, List.filter_append, List.filter_append, hkeep hpre, hdrop,
    hkeep hpost, List.append_nil, towers_append]

theorem built_filter (k : Key) :
    (os.filter fun o => o.1 ≠ k).map (built H) =
      (os.map (built H)).filter fun d => d.1 ≠ k.val := by
  rw [List.filter_map]
  congr 1
  apply List.filter_congr
  intro o _
  exact decide_eq_decide.mpr (not_congr Subtype.ext_iff)

/-- A call leaves one tower for each origin. -/
theorem Effect.origins {c : ι × Call P} {o : Reply P} {rel rel' : List (Option P)}
    (heff : Effect f (c.2.draw (H c.1)) o ns ns' rel rel')
    (hperm : (towers ns).Perm (os.map (built H))) :
    (towers ns').Perm ((originStep os c).map (built H)) := by
  obtain ⟨i, c⟩ := c
  have hmem := key_mem_origins hperm
  cases c with
  | insert k p t =>
    dsimp only [Call.draw] at heff
    cases heff with
    | @overwrite _ _ _ pre post x _ hpre hx hpost =>
      have hk : k ∈ os.map Prod.fst :=
        (hmem k).mpr ⟨x, List.mem_append_right _ List.mem_cons_self, hx⟩
      simp only [originStep, if_pos hk]
      rw [towers_append, towers_cons] at hperm ⊢
      exact hperm
    | @add _ _ _ pre post a _ hpre hpost =>
      have hk : k ∉ os.map Prod.fst := by
        intro hk
        obtain ⟨n, hn, hkey⟩ := (hmem k).mp hk
        rcases List.mem_append.mp hn with hn | hn
        · exact UInt32.ne_of_lt (hpre n hn) hkey
        · exact UInt32.ne_of_lt (hpost n hn) hkey.symm
      simp only [originStep, if_neg hk]
      rw [towers_append, towers_cons]
      rw [towers_append] at hperm
      exact List.perm_middle.trans (hperm.cons _)
  | delete k =>
    dsimp only [Call.draw] at heff
    have hleft := hperm.filter fun d => d.1 ≠ k.val
    rw [← built_filter] at hleft
    cases heff with
    | @remove _ pre post x _ hpre hx hpost =>
      have hcut := towers_filter pre [x] post (fun n hn => UInt32.ne_of_lt (hpre n hn))
        (by simpa using hx) (fun n hn => (UInt32.ne_of_lt (hpost n hn)).symm)
      rw [List.append_assoc, List.singleton_append] at hcut
      rw [hcut] at hleft
      exact hleft
    | @absent _ _ _ habs =>
      have hcut := towers_filter ns [] [] habs (by simp) (by simp)
      rw [List.append_nil, List.append_nil] at hcut
      rw [hcut] at hleft
      exact hleft
  | search k =>
    cases heff
    exact hperm
  | fingerSearch k =>
    cases heff
    exact hperm
  | length =>
    cases heff
    exact hperm

end Origins

theorem origins_concat (calls : List (ι × Call P)) (c : ι × Call P) :
    origins (calls ++ [c]) = originStep (origins calls) c := by
  rw [origins, origins, List.foldl_append]
  rfl

/-- No call builds two towers. -/
theorem origins_sublist (calls : List (ι × Call P)) :
    ((origins calls).map Prod.snd).Sublist (calls.map Prod.fst).reverse := by
  induction calls using List.reverseRecOn with
  | nil => exact List.Sublist.refl _
  | append_singleton calls c ih =>
    obtain ⟨i, c⟩ := c
    rw [origins_concat, List.map_append, List.reverse_append, List.map_singleton,
      List.reverse_singleton, List.singleton_append]
    cases c with
    | insert k p t =>
      dsimp only [originStep]
      split
      · exact ih.cons i
      · exact ih.cons_cons i
    | delete k => exact (List.filter_sublist.map Prod.snd).trans (ih.cons i)
    | search k => exact ih.cons i
    | fingerSearch k => exact ih.cons i
    | length => exact ih.cons i

/-- No key has two towers. -/
theorem origins_keys (calls : List (ι × Call P)) : ((origins calls).map Prod.fst).Nodup := by
  induction calls using List.reverseRecOn with
  | nil => exact List.nodup_nil
  | append_singleton calls c ih =>
    obtain ⟨i, c⟩ := c
    rw [origins_concat]
    cases c with
    | insert k p t =>
      dsimp only [originStep]
      split
      · exact ih
      · next hk => exact List.nodup_cons.mpr ⟨hk, ih⟩
    | delete k => exact ih.sublist (List.filter_sublist.map Prod.fst)
    | search k => exact ih
    | fingerSearch k => exact ih
    | length => exact ih

/-- The origins by rising key. -/
theorem exists_rising {os : List (Key × ι)} (hnd : (os.map Prod.fst).Nodup) :
    ∃ rs : List (Key × ι), rs.Perm os ∧ rs.Pairwise fun a b => a.1.val < b.1.val := by
  let le (a b : Key × ι) : Bool := decide (a.1.val ≤ b.1.val)
  have hsort := @List.pairwise_mergeSort _ le
    (fun a b c hab hbc => by
      simp only [le, decide_eq_true_eq] at hab hbc ⊢
      exact UInt32.le_trans hab hbc)
    (fun a b => by
      simp only [le, Bool.or_eq_true, decide_eq_true_eq]
      exact UInt32.le_total _ _)
    os
  have hperm := List.mergeSort_perm os le
  have hne : (os.mergeSort le).Pairwise fun a b => a.1 ≠ b.1 :=
    List.pairwise_map.mp ((hperm.map Prod.fst).nodup_iff.mpr hnd)
  refine ⟨_, hperm, (hsort.and hne).imp ?_⟩
  intro a b h
  obtain ⟨hle, hne⟩ := h
  exact UInt32.lt_of_le_of_ne (of_decide_eq_true hle) fun he => hne (Subtype.ext he)

/-- After a session the towers of the list, by rising keys, are those of its origins. -/
theorem session_towers (f : FreeFunc) (calls : List (ι × Call P)) (H : ι → Height)
    {rs : List (Key × ι)} (hperm : rs.Perm (origins calls))
    (hrs : rs.Pairwise fun a b => a.1.val < b.1.val) :
    ∃ os st ns, session f (drawn H calls) = .ok (os, st) ∧ Inv st ns ∧
      towers ns = rs.map (built H) := by
  obtain ⟨os, st, ns, hrun, hInv, -, -, hR⟩ := session_history f
    (fun past ns _ => ∀ cs, past = drawn H cs → (towers ns).Perm ((origins cs).map (built H)))
    (fun cs he => by
      rw [List.map_eq_nil_iff.mp he.symm]
      exact List.Perm.refl _)
    (fun past c o ns ns' rel rel' h heff cs he => by
      rcases List.eq_nil_or_concat cs with rfl | ⟨cs, d, rfl⟩
      · exact absurd he (by simp [drawn])
      · rw [List.concat_eq_append] at he ⊢
        rw [drawn, List.map_append] at he
        obtain ⟨hpast, hc⟩ := List.append_inj' he rfl
        obtain rfl := (List.cons.inj hc).1
        rw [origins_concat]
        exact heff.origins (h cs hpast)) (drawn H calls)
  refine ⟨os, st, ns, hrun, hInv, ?_⟩
  have hsame := (hR calls rfl).trans (hperm.map (built H)).symm
  have hl : (towers ns).Pairwise fun d e => d.1 < e.1 := List.pairwise_map.mpr hInv.rep.sorted
  have hr : (rs.map (built H)).Pairwise fun d e => d.1 < e.1 := List.pairwise_map.mpr hrs
  apply hsame.eq_of_pairwise _ hl hr
  intro d e _ _ hde hed
  exact absurd hed (UInt32.lt_asymm hde)

/-! ## Time -/

section Cost

variable {st : State P} {ns : List (Tower P)} {H : ι → Height} {rs : List (Key × ι)}

/-- The tests of a search: the records among the heights of the smaller keys, and the height of
    the tallest tower. -/
theorem searchTests_towers (hInv : Inv st ns) (hns : towers ns = rs.map (built H)) (k : Key) :
    searchTests st k.val =
      .ok ((records (fun o => (H o.2).val) (rs.filter fun o => o.1.val < k.val)).length +
        rs.foldr (fun o t => max (H o.2).val t) 1) := by
  obtain ⟨pre, post, rfl, hpre, hpost⟩ := hInv.rep.split k.val
  have hbefore : towers pre = (rs.filter fun o => o.1.val < k.val).map (built H) := by
    have hcut := congrArg (List.filter fun d => d.1 < k.val) hns
    rw [towers_append, List.filter_append, List.filter_map] at hcut
    rw [List.filter_eq_self.mpr, List.filter_eq_nil_iff.mpr, List.append_nil] at hcut
    · exact hcut
    · intro d hd
      obtain ⟨n, hn, rfl⟩ := List.mem_map.mp hd
      exact fun hlt => UInt32.not_lt.mpr (hpost n hn) (of_decide_eq_true hlt)
    · intro d hd
      obtain ⟨n, hn, rfl⟩ := List.mem_map.mp hd
      exact decide_eq_true (hpre n hn)
  have hrecords : (records Tower.height pre).length =
      (records (fun o => (H o.2).val) (rs.filter fun o => o.1.val < k.val)).length := by
    have hlen := congrArg (fun ds => (records (fun d : UInt32 × Nat => d.2) ds).length) hbefore
    rw [towers] at hlen
    simp only [records_map, List.length_map] at hlen
    exact hlen
  have htop : topLevel (pre ++ post) = rs.foldr (fun o t => max (H o.2).val t) 1 := by
    have hfold := congrArg (List.foldr (fun d t => max d.2 t) 1) hns
    rw [towers, List.foldr_map, List.foldr_map] at hfold
    exact hfold
  rw [searchTests, hInv.toHolds.searchPath k.property hpre hpost, Runs.ok_bind, List.length_map,
    hrecords, hInv.level, htop]

end Cost

section Average

variable {n m : Nat}

/-- The call at position `i` has the draws of this name. -/
def named (calls : Fin n → Call P) : List (Fin n × Call P) := List.ofFn fun i => (i, calls i)

theorem drawn_named (H : Fin n → Height) (calls : Fin n → Call P) :
    drawn H (named calls) = List.ofFn fun i => (calls i).draw (H i) := by
  rw [drawn, named, List.map_ofFn]
  rfl

/-- The towers at the end, by rising keys, have draws of their own. -/
theorem exists_origins (calls : Fin n → Call P) :
    ∃ rs : List (Key × Fin n), rs.Perm (origins (named calls)) ∧
      (rs.Pairwise fun a b => a.1.val < b.1.val) ∧ (rs.map Prod.snd).Nodup := by
  obtain ⟨rs, hperm, hrs⟩ := exists_rising (origins_keys (named calls))
  refine ⟨rs, hperm, hrs, (hperm.map Prod.snd).nodup_iff.mpr ?_⟩
  have hnames : ((named calls).map Prod.fst).Nodup := by
    rw [named, List.map_ofFn]
    exact List.nodup_ofFn.mpr fun i j h => h
  exact (List.nodup_reverse.mpr hnames).sublist (origins_sublist _)

/-- After any session the tests of the loop condition in a search for any key are, on average
    over the draws of `random_level`, at most 4 L + 7/3 n / 4^L for the `n` keys that are stored;
    with `n ≤ 4^L` that is 4 L + 7/3. -/
theorem skip_search_average (f : FreeFunc) (calls : Fin n → Call P) (hm : skipMax ≤ m + 1)
    (k : Key) {L : Nat} (hL : 1 ≤ L) (hLmax : L < skipMax) :
    ∃ (keys : Nat) (tests : (Fin n → Fin m → Draw) → Nat),
      (∀ D, ∃ os st,
        session f (List.ofFn fun i => (calls i).draw (heightDrawn (D i))) = .ok (os, st) ∧
        st.sl.length = keys ∧ searchTests st k.val = .ok (tests D)) ∧
      (𝔼 D, (tests D : ℚ)) ≤ 4 * L + 7 / 3 * (keys / 4 ^ L) := by
  obtain ⟨rs, hperm, hrs, hnd⟩ := exists_origins calls
  let before : List (Fin n) := (rs.filter fun o => o.1.val < k.val).map Prod.snd
  let all : List (Fin n) := rs.map Prod.snd
  have hsub : before.Sublist all := List.filter_sublist.map Prod.snd
  let g (d : Fin m → Draw) : Nat := (heightDrawn d).val
  refine ⟨rs.length, fun D => (records (fun i => g (D i)) before).length +
    all.foldr (fun i t => max (g (D i)) t) 1, fun D => ?_, ?_⟩
  · obtain ⟨os, st, ns, hrun, hInv, hns⟩ :=
      session_towers f (named calls) (fun i => heightDrawn (D i)) hperm hrs
    rw [drawn_named] at hrun
    refine ⟨os, st, hrun, ?_, ?_⟩
    · have hlen := congrArg List.length hns
      rw [towers, List.length_map, List.length_map] at hlen
      rw [hInv.length, hlen]
    · show _ = Except.ok ((records (fun i => g (D i)) before).length +
        all.foldr (fun i t => max (g (D i)) t) 1)
      rw [searchTests_towers hInv hns k, records_map, List.length_map, List.foldr_map]
      rfl
  · have hmoves := records_average (g := g) (q := 3) (L := L) (by norm_num)
      (fun d => (heightDrawn d).pos)
      (fun t h1 ht => by
        rw [share_exactly hm h1 (by omega), share_taller hm (by omega)]) (hnd.sublist hsub)
    have hlevels := max_average (g := g) hL all
    have hexcess := heightDrawn_excess_le hm L
    rw [share_taller hm hLmax] at hmoves
    have hlen : all.length = rs.length := List.length_map _
    have hbefore : before.length ≤ rs.length := hsub.length_le.trans_eq hlen
    have hpow : (0 : ℚ) ≤ (1 / 4) ^ L := by positivity
    have hdiv : (rs.length : ℚ) / 4 ^ L = rs.length * (1 / 4) ^ L := by
      rw [one_div, inv_pow, div_eq_mul_inv]
    have h₁ : (before.length : ℚ) * (1 / 4) ^ L ≤ rs.length * (1 / 4) ^ L :=
      mul_le_mul_of_nonneg_right (by exact_mod_cast hbefore) hpow
    have h₂ : (rs.length : ℚ) * (𝔼 d, ((g d - L : Nat) : ℚ)) ≤
        rs.length * (4 / 3 * (1 / 4) ^ L) :=
      mul_le_mul_of_nonneg_left hexcess (Nat.cast_nonneg _)
    rw [hlen] at hlevels
    simp only [Nat.cast_add]
    rw [Finset.expect_add_distrib, hdiv]
    linarith

/-- Two keys are stored at the end, one of them over an older payload. -/
theorem skip_search_average_five :
    let calls : Fin 5 → Call Unit :=
      ![.insert ⟨3, by decide⟩ () ⟨1, by decide, by decide⟩,
        .insert ⟨1, by decide⟩ () ⟨1, by decide, by decide⟩,
        .delete ⟨3, by decide⟩,
        .insert ⟨1, by decide⟩ () ⟨1, by decide, by decide⟩,
        .insert ⟨2, by decide⟩ () ⟨1, by decide, by decide⟩]
    ∃ (keys : Nat) (tests : (Fin 5 → Fin 31 → Draw) → Nat),
      (∀ D, ∃ os st, session FreeFunc.defaultFree
          (List.ofFn fun i => (calls i).draw (heightDrawn (D i))) = .ok (os, st) ∧
        st.sl.length = keys ∧ searchTests st 3 = .ok (tests D)) ∧
      (𝔼 D, (tests D : ℚ)) ≤ 4 * (1 : Nat) + 7 / 3 * (keys / 4 ^ 1) :=
  skip_search_average FreeFunc.defaultFree _ (by decide) ⟨3, by decide⟩ (by decide) (by decide)

/-! ## Space -/

/-- The forward slots of the nodes, without those of the header. -/
def slots (st : State P) : Option Nat :=
  (chainAt st 0).map fun c => (c.map (heightOf st.heap)).sum

theorem slots_towers {st : State P} {ns : List (Tower P)} (hInv : Inv st ns) :
    slots st = some ((towers ns).map Prod.snd).sum := by
  rw [slots, hInv.wellFormed.base, Option.map_some, List.map_map, towers, List.map_map]
  refine congrArg (fun l => some (List.sum l)) (List.map_congr_left fun n hn => ?_)
  exact hInv.rep.heightOf hn

/-- After any session the nodes have 4/3 (1 - 1/4^32) forward slots for each key that is stored,
    on average over the draws. -/
theorem skip_space_average (f : FreeFunc) (calls : Fin n → Call P) (hm : skipMax ≤ m + 1) :
    ∃ (keys : Nat) (space : (Fin n → Fin m → Draw) → Nat),
      (∀ D, ∃ os st,
        session f (List.ofFn fun i => (calls i).draw (heightDrawn (D i))) = .ok (os, st) ∧
        st.sl.length = keys ∧ slots st = some (space D)) ∧
      (𝔼 D, (space D : ℚ)) = keys * (4 / 3 * (1 - (1 / 4) ^ skipMax)) := by
  obtain ⟨rs, hperm, hrs, -⟩ := exists_origins calls
  refine ⟨rs.length, fun D => (rs.map fun o => (heightDrawn (D o.2)).val).sum, fun D => ?_, ?_⟩
  · obtain ⟨os, st, ns, hrun, hInv, hns⟩ :=
      session_towers f (named calls) (fun i => heightDrawn (D i)) hperm hrs
    rw [drawn_named] at hrun
    refine ⟨os, st, hrun, ?_, ?_⟩
    · have hlen := congrArg List.length hns
      rw [towers, List.length_map, List.length_map] at hlen
      rw [hInv.length, hlen]
    · rw [slots_towers hInv, hns, List.map_map]
      rfl
  · -- tower by tower
    clear hperm hrs
    induction rs with
    | nil => simp
    | cons o rs ih =>
      simp only [List.map_cons, List.sum_cons, Nat.cast_add, List.length_cons, Nat.cast_one]
      rw [Finset.expect_add_distrib, ih,
        expect_eval o.2 fun d : Fin m → Draw => ((heightDrawn d).val : ℚ), heightDrawn_average hm]
      ring

theorem skip_space_average_two :
    let calls : Fin 2 → Call Unit :=
      ![.insert ⟨3, by decide⟩ () ⟨1, by decide, by decide⟩,
        .insert ⟨1, by decide⟩ () ⟨1, by decide, by decide⟩]
    ∃ (keys : Nat) (space : (Fin 2 → Fin 31 → Draw) → Nat),
      (∀ D, ∃ os st, session FreeFunc.defaultFree
          (List.ofFn fun i => (calls i).draw (heightDrawn (D i))) = .ok (os, st) ∧
        st.sl.length = keys ∧ slots st = some (space D)) ∧
      (𝔼 D, (space D : ℚ)) = keys * (4 / 3 * (1 - (1 / 4) ^ skipMax)) :=
  skip_space_average FreeFunc.defaultFree _ (by decide)

end Average

end DataMonkey.Skip
