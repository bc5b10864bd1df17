import DataMonkey.Lib.Store
import DataMonkey.Lib.Chain

/- The skip list of `skip.c`, over an explicit heap of nodes.

   A node is a heap object with a key, a payload pointer and a tower of forward slots.
   Its height is stored nowhere in the source; here it is the number of slots that
   `create_skip_node` asked for, so that reading `level[i]` past the tower is a fault
   and not a value. Every pointer that a function follows, every slot and array entry
   that it reads is checked, and what C leaves undefined is a `Fault`.

   Correspondence (C ↔ Lean):
     `skip_node`, `skip_list`                       ↔ `SkipNode`, `SkipList`
     `create_skip_node`                             ↔ `createSkipNode`
     `default_compare`, `default_free`              ↔ `defaultCompare`, `callFree`
     `random_level`                                 ↔ `randomLevel`
     `skip_init`, `skip_destroy`                    ↔ `skipInit`, `skipDestroy`
     `skip_insert`, `skip_delete`                   ↔ `skipInsert`, `skipDelete`
     `skip_search`, `skip_finger_search`            ↔ `skipSearch`, `skipFingerSearch`
     `skip_level`, `skip_length`                    ↔ `skipLevel`, `skipLength`
     the `for`/`while` descent the four calls share ↔ `descend`, `walk`

   A pointer is an `Option Addr` with `none` for NULL, a payload an `Option P` over any
   type `P` of non-NULL pointers. `length` is an `Int`: a run that would take the C `int`
   past 2^31 - 1 is undefined there, and up to that point the two agree. A failed `malloc`
   ends the process in `check_hard`, so no call returns from it; here `malloc` succeeds. -/
namespace DataMonkey.Skip

/-- What a call can run into instead of returning. -/
inductive Fault where
  | exit         -- a `check_hard` failed and the process ended
  | nullPointer  -- a NULL pointer was followed
  | freedNode    -- a pointer to a node that is no longer allocated was followed
  | towerBound   -- `level[i]` of a node with at most `i` slots
  | unwritten    -- a forward slot or an `update` entry that was never written
  | arrayBound   -- an index outside `update` or `finger`
  | endless      -- a loop over a chain made more steps than there are nodes
  deriving DecidableEq, Repr

/-- `SKIP_MAX` -/
def skipMax : Nat := 32

abbrev Addr := Nat

/-- `level` holds the slots `level[0], level[1], ...` of the tower: `none` until a
    forward pointer was stored there. -/
structure SkipNode (P : Type) where
  key : UInt32
  payload : Option P
  level : List (Option (Option Addr))

abbrev Heap (P : Type) := Store (SkipNode P)

/-- The installed `free_func`: `default_free`, which does nothing, or the caller's. -/
inductive FreeFunc where
  | defaultFree
  | custom
  deriving DecidableEq, Repr

structure SkipList where
  level : Nat
  length : Int
  finger : Nat → Option Addr
  header : Addr
  freeFunc : FreeFunc

/-- A list, the heap its nodes live in, and the payloads passed to the caller's
    `free_func` so far, the latest first. -/
structure State (P : Type) where
  sl : SkipList
  heap : Heap P
  released : List (Option P)

/-- A tower height that `random_level` may draw. -/
structure Height where
  val : Nat
  pos : 1 ≤ val
  le_max : val ≤ skipMax

variable {P : Type}

def checkHard (c : Bool) : Except Fault Unit :=
  if c then .ok () else .error .exit

/-! ## Memory accesses -/

def load (h : Heap P) (x : Addr) : Except Fault (SkipNode P) :=
  match h.cell x with
  | none => .error .freedNode
  | some n => .ok n

def nonNull : Option Addr → Except Fault Addr
  | none => .error .nullPointer
  | some x => .ok x

/-- `x->level[i].forward` -/
def forward (h : Heap P) (i : Nat) (x : Addr) : Except Fault (Option Addr) := do
  let n ← load h x
  match n.level[i]? with
  | none => .error .towerBound
  | some none => .error .unwritten
  | some (some p) => .ok p

/-- `x->level[i].forward = p` -/
def setForward (h : Heap P) (i : Nat) (x : Addr) (p : Option Addr) : Except Fault (Heap P) := do
  let n ← load h x
  if i < n.level.length then .ok (h.write x { n with level := n.level.set i (some p) })
  else .error .towerBound

/-- Reading and writing an array of `SKIP_MAX` pointers. -/
def readArray (arr : Nat → Option Addr) (i : Nat) : Except Fault (Option Addr) :=
  if i < skipMax then .ok (arr i) else .error .arrayBound

def writeArray (arr : Nat → Option Addr) (i : Nat) (x : Addr) :
    Except Fault (Nat → Option Addr) :=
  if i < skipMax then .ok (fun j => if j = i then some x else arr j) else .error .arrayBound

/-- `update[i]`, which must have been written before. -/
def readUpdate (update : Nat → Option Addr) (i : Nat) : Except Fault Addr := do
  match ← readArray update i with
  | none => .error .unwritten
  | some x => .ok x

def createSkipNode (h : Heap P) (level : Nat) (key : UInt32) (payload : Option P) :
    Addr × Heap P :=
  (h.next, h.alloc { key := key, payload := payload, level := List.replicate level none })

def defaultCompare (a b : UInt32) : Bool := a < b

/-- `sl->free_func(payload)` -/
def callFree (f : FreeFunc) (payload : Option P) (released : List (Option P)) :
    List (Option P) :=
  match f with
  | .defaultFree => released
  | .custom => payload :: released

/-- The loop of `random_level` over the values `random()` returns: `0.25 * 0xFFFF` is
    16383.75, so the test is on four times the masked value. -/
def randomLoop : List Nat → Nat → Nat
  | [], level => level
  | d :: draws, level => if 4 * (d &&& 0xFFFF) < 0xFFFF then randomLoop draws (level + 1) else level

theorem le_randomLoop : ∀ (draws : List Nat) (level : Nat), level ≤ randomLoop draws level
  | [], level => Nat.le_refl level
  | d :: draws, level => by
    simp only [randomLoop]
    split
    · exact Nat.le_of_succ_le (le_randomLoop draws (level + 1))
    · exact Nat.le_refl level

def randomLevel (draws : List Nat) : Height :=
  if h : randomLoop draws 1 < skipMax then
    ⟨randomLoop draws 1, le_randomLoop draws 1, Nat.le_of_lt h⟩
  else ⟨skipMax, by decide, Nat.le_refl skipMax⟩

theorem randomLoop_replicate (d : Nat) (hd : ¬ 4 * (d &&& 0xFFFF) < 0xFFFF) :
    ∀ n level, randomLoop (List.replicate n 0 ++ [d]) level = level + n
  | 0, level => by simp only [List.replicate_zero, List.nil_append, randomLoop, if_neg hd,
      Nat.add_zero]
  | n + 1, level => by
    rw [List.replicate_succ, List.cons_append, randomLoop, if_pos (by decide),
      randomLoop_replicate d hd n (level + 1)]
    omega

/-- Every height is drawn by some sequence of random numbers. -/
theorem randomLevel_surjective : Function.Surjective randomLevel := by
  intro h
  obtain ⟨t, hpos, hmax⟩ := h
  refine ⟨List.replicate (t - 1) 0 ++ [0xFFFF], ?_⟩
  have hloop := randomLoop_replicate 0xFFFF (by decide) (t - 1) 1
  rw [show 1 + (t - 1) = t by omega] at hloop
  unfold randomLevel
  by_cases ht : t < skipMax
  · rw [dif_pos (by rw [hloop]; exact ht)]
    simp only [hloop]
  · rw [dif_neg (by rw [hloop]; exact ht)]
    simp only [Height.mk.injEq]
    omega

/-! ## The descent -/

/-- `default_compare(y->key, key)` -/
def keyLess (h : Heap P) (key : UInt32) (y : Addr) : Except Fault Bool := do
  let n ← load h y
  .ok (defaultCompare n.key key)

/-- The inner `while` loop at level `i`. No chain is longer than the number of nodes
    ever allocated, which is the most tests the loop is given. -/
def walk (h : Heap P) (key : UInt32) (i : Nat) (x : Addr) : Except Fault Addr :=
  Chain.walk (forward h i) (keyLess h key) .endless h.next x

/-- `for (i = n - 1; i >= 0; i--)`: walk along level `i`, then do `visit i x`. -/
def descend {σ : Type} (h : Heap P) (key : UInt32) (visit : Nat → Addr → σ → Except Fault σ) :
    Nat → Addr → σ → Except Fault (Addr × σ)
  | 0, x, s => .ok (x, s)
  | i + 1, x, s => do
    let x ← walk h key i x
    let s ← visit i x s
    descend h key visit i x s

/-- `x = (x->level[0].forward) ? x->level[0].forward : x` -/
def candidate (h : Heap P) (x : Addr) : Except Fault Addr := do
  let p ← forward h 0 x
  .ok (p.getD x)

/-- The local `update` array and the list's `finger` array. -/
structure Trail where
  update : Nat → Option Addr
  finger : Nat → Option Addr

/-- `update[i] = x; sl->finger[i] = x` -/
def Trail.record (i : Nat) (x : Addr) (t : Trail) : Except Fault Trail := do
  let u ← writeArray t.update i x
  let f ← writeArray t.finger i x
  .ok ⟨u, f⟩

/-- `sl->finger[i] = x` -/
def recordFinger (i : Nat) (x : Addr) (finger : Nat → Option Addr) :
    Except Fault (Nat → Option Addr) :=
  writeArray finger i x

/-! ## The operations -/

def skipInit (freeFunc : FreeFunc) : Except Fault (State P) := do
  let (header, heap) := createSkipNode (P := P) Store.empty skipMax 0 none
  let heap ← (List.range' 0 skipMax).foldlM (fun h i => setForward h i header none) heap
  .ok { sl := { level := 1, length := 0, finger := fun _ => none, header, freeFunc }
        heap, released := [] }

/-- Levels `sl->level` up to `rand_level - 1` get the header in `update` and `finger`. -/
def raise (header : Addr) (level randLevel : Nat) (t : Trail) : Except Fault (Nat × Trail) :=
  if level < randLevel then do
    let t ← (List.range' level (randLevel - level)).foldlM (fun t i => t.record i header) t
    .ok (randLevel, t)
  else .ok (level, t)

/-- The new node `x` goes in after `update[i]` on every level of its tower. -/
def splice (update : Nat → Option Addr) (x : Addr) (h : Heap P) (i : Nat) :
    Except Fault (Heap P) := do
  let u ← readUpdate update i
  let p ← forward h i u
  let h ← setForward h i x p
  setForward h i u (some x)

def skipInsert (st : State P) (key : UInt32) (payload : Option P) (randLevel : Height) :
    Except Fault (Int × State P) := do
  checkHard (key ≠ 0)
  checkHard payload.isSome
  let sl := st.sl
  let (x, t) ← descend st.heap key Trail.record sl.level sl.header ⟨fun _ => none, sl.finger⟩
  let x ← candidate st.heap x
  let n ← load st.heap x
  if n.key = key then
    .ok (2, { sl := { sl with finger := t.finger }
              heap := st.heap.write x { n with payload := payload }
              released := callFree sl.freeFunc n.payload st.released })
  else
    let (level, t) ← raise sl.header sl.level randLevel.val t
    let (x, heap) := createSkipNode st.heap randLevel.val key payload
    let heap ← (List.range' 0 randLevel.val).foldlM (splice t.update x) heap
    .ok (1, { sl := { sl with level := level, length := sl.length + 1, finger := t.finger }
              heap := heap, released := st.released })

/-- `if (update[i]->level[i].forward == x) update[i]->level[i].forward = x->level[i].forward` -/
def unlink (update : Nat → Option Addr) (x : Addr) (h : Heap P) (i : Nat) :
    Except Fault (Heap P) := do
  let u ← readUpdate update i
  let p ← forward h i u
  if p = some x then
    let q ← forward h i x
    setForward h i u q
  else .ok h

/-- `while (sl->level > 1 && header->level[sl->level - 1].forward == NULL) sl->level--` -/
def lowerLevel (h : Heap P) (header : Addr) : Nat → Except Fault Nat
  | n + 2 => do
    match ← forward h (n + 1) header with
    | none => lowerLevel h header (n + 1)
    | some _ => .ok (n + 2)
  | n => .ok n

def skipDelete (st : State P) (key : UInt32) : Except Fault (Int × State P) := do
  checkHard (key ≠ 0)
  let sl := st.sl
  let (x, t) ← descend st.heap key Trail.record sl.level sl.header ⟨fun _ => none, sl.finger⟩
  let x ← candidate st.heap x
  let n ← load st.heap x
  if n.key = key then
    let heap ← (List.range' 0 sl.level).foldlM (unlink t.update x) st.heap
    let n ← load heap x
    let heap' := heap.free x
    let level ← lowerLevel heap' sl.header sl.level
    .ok (1, { sl := { sl with level := level, length := sl.length - 1, finger := t.finger }
              heap := heap', released := callFree sl.freeFunc n.payload st.released })
  else .ok (0, { st with sl := { sl with finger := t.finger } })

/-- `return (x->key == key) ? x->payload : NULL` on the node the descent ended at. -/
def result (h : Heap P) (key : UInt32) (x : Addr) : Except Fault (Option P) := do
  let x ← candidate h x
  let n ← load h x
  .ok (if n.key = key then n.payload else none)

def skipSearch (st : State P) (key : UInt32) : Except Fault (Option P) := do
  checkHard (key ≠ 0)
  let (x, _) ← descend st.heap key (fun _ _ u => .ok u) st.sl.level st.sl.header ()
  result st.heap key x

/-- `finger[lvl]->level[lvl].forward && its key < key`; only `finger[0]` was tested for NULL. -/
def aheadOf (h : Heap P) (finger : Nat → Option Addr) (key : UInt32) (lvl : Nat) :
    Except Fault Bool := do
  let f ← nonNull (← readArray finger lvl)
  match ← forward h lvl f with
  | none => .ok false
  | some y => keyLess h key y

/-- `finger[lvl] && key < finger[lvl]->key` -/
def behindOf (h : Heap P) (finger : Nat → Option Addr) (key : UInt32) (lvl : Nat) :
    Except Fault Bool := do
  match ← readArray finger lvl with
  | none => .ok false
  | some f =>
    let n ← load h f
    .ok (defaultCompare key n.key)

/-- The level and the node that the climb over the fingers hands to the descent. Both
    loops run `while (lvl <= sl->level - 1 && ...) lvl++` from 1. In both branches the
    pointer is followed next, so a NULL finger is a fault here. -/
def climb (st : State P) (key : UInt32) : Except Fault (Nat × Addr) := do
  let sl := st.sl
  let ahead ← match ← readArray sl.finger 0 with
    | none => .ok false
    | some f => keyLess st.heap key f
  if ahead then
    let lvl ← Runs.countWhile (aheadOf st.heap sl.finger key) (sl.level - 1) 1
    let x ← nonNull (← readArray sl.finger (lvl - 1))
    .ok (lvl - 1, x)
  else
    let lvl ← Runs.countWhile (behindOf st.heap sl.finger key) (sl.level - 1) 1
    if sl.level - 1 < lvl then .ok (sl.level, sl.header)
    else
      let x ← nonNull (← readArray sl.finger lvl)
      .ok (lvl, x)

def skipFingerSearch (st : State P) (key : UInt32) : Except Fault (Option P × State P) := do
  let (lvl, x) ← climb st key
  let (x, finger) ← descend st.heap key recordFinger lvl x st.sl.finger
  let r ← result st.heap key x
  .ok (r, { st with sl := { st.sl with finger := finger } })

def skipLevel (st : State P) : Nat := st.sl.level

def skipLength (st : State P) : Int := st.sl.length

/-- The `while (node)` loop of `skip_destroy`. -/
def destroyNodes (f : FreeFunc) : Nat → Option Addr → Heap P → List (Option P) →
    Except Fault (Heap P × List (Option P))
  | _, none, h, released => .ok (h, released)
  | 0, some _, _, _ => .error .endless
  | fuel + 1, some node, h, released => do
    let next ← forward h 0 node
    let n ← load h node
    destroyNodes f fuel next (h.free node) (callFree f n.payload released)

/-- The heap and the released payloads after the list is gone. -/
def skipDestroy (st : State P) : Except Fault (Heap P × List (Option P)) := do
  let node ← forward st.heap 0 st.sl.header
  destroyNodes st.sl.freeFunc st.heap.next node (st.heap.free st.sl.header) st.released

/-! ## Sequences of calls -/

/-- A key the `check_hard` guards admit. -/
abbrev Key := { k : UInt32 // k ≠ 0 }

/-- A call with the arguments the guards admit, and the height that `random_level` draws
    should `skip_insert` ask for one. -/
inductive Call (P : Type) where
  | insert (key : Key) (payload : P) (height : Height)
  | delete (key : Key)
  | search (key : Key)
  | fingerSearch (key : Key)
  | length

inductive Reply (P : Type) where
  | code (r : Int)
  | payload (p : Option P)
  | length (n : Int)
  deriving DecidableEq, Repr

def skipStep (st : State P) : Call P → Except Fault (Reply P × State P)
  | .insert k p h => do
    let (r, st) ← skipInsert st k.val (some p) h
    .ok (.code r, st)
  | .delete k => do
    let (r, st) ← skipDelete st k.val
    .ok (.code r, st)
  | .search k => do
    let r ← skipSearch st k.val
    .ok (.payload r, st)
  | .fingerSearch k => do
    let (r, st) ← skipFingerSearch st k.val
    .ok (.payload r, st)
  | .length => .ok (.length (skipLength st), st)

/-- `skip_init(f)` and then the calls in order. -/
def session (f : FreeFunc) (calls : List (Call P)) : Except Fault (List (Reply P) × State P) := do
  let st ← skipInit f
  Runs.run skipStep st calls

/-! ## Reading a list from outside -/

def keyOf (h : Heap P) (a : Addr) : Option UInt32 := (h.cell a).map SkipNode.key
def payloadOf (h : Heap P) (a : Addr) : Option P := (h.cell a).bind SkipNode.payload

/-- The number of slots that `create_skip_node` gave the node; no call changes it. -/
def heightOf (h : Heap P) (a : Addr) : Nat := ((h.cell a).map (fun n => n.level.length)).getD 0

/-- The nodes met from the header through `level[i].forward` until NULL, or `none` if a
    link on the way cannot be followed or NULL is never reached. -/
def chainAt (st : State P) (i : Nat) : Option (List Addr) :=
  (Chain.collect (forward st.heap i) st.heap.next (some st.sl.header)).map List.tail

end DataMonkey.Skip
