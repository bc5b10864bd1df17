import DataMonkey.Lib.Runs
import DataMonkey.Lookup3.Words

/- The event loops of `demo_inotify.c` and `watch_test.c`.

   A `read` from an inotify descriptor fills a buffer with events. An event is a header of four
   words and a name of as many bytes as the last word says; the next one begins behind it. Both
   programs walk through the buffer with a pointer to the current event. The first moves it by the
   size of the event. The second subtracts that size from what is left of the buffer, but moves
   the pointer by the size of a pointer instead of the size of the header.

   Correspondence (C ↔ Lean):
     `struct inotify_event`               ↔ `InotifyEvent`, its name left in the buffer
     `displayInotifyEvent`                ↔ `displayInotifyEvent`
     the loop over a buffer, and `main`   ↔ `processEvents`, `readEvents`
     the loop over a buffer of the other  ↔ `watchEvents`

   A buffer is the bytes that were read, and reading behind them is a fault. What is printed are
   bytes, since a name may be any. A pointer has 8 bytes; the byte order is a parameter.

     1. `loadEvent_at`, `display_at` — an event where it begins;
     2. `demo_displays` — every event of every read, in order;
     3. `watch_exact` — the second program does so for a single event with a name. -/
namespace DataMonkey.Inotify

open Lookup3

/-- What a loop can run into instead of ending. -/
inductive Fault where
  | unread  -- a byte behind those that were read
  deriving DecidableEq, Repr

abbrev Bytes := List UInt8

/-! ## Reading a buffer -/

def byte (buf : Bytes) (q : Nat) : Except Fault UInt8 :=
  match buf[q]? with
  | none => .error .unread
  | some x => .ok x

def word (order : Order) (buf : Bytes) (q : Nat) : Except Fault UInt32 := do
  let x₀ ← byte buf q
  let x₁ ← byte buf (q + 1)
  let x₂ ← byte buf (q + 2)
  let x₃ ← byte buf (q + 3)
  .ok (wordOf order x₀.toUInt32 x₁.toUInt32 x₂.toUInt32 x₃.toUInt32)

/-- A string up to the NUL that ends it. -/
def cstring : Bytes → Except Fault Bytes
  | [] => .error .unread
  | x :: l => if x = 0 then .ok [] else do
    let s ← cstring l
    .ok (x :: s)

structure InotifyEvent where
  wd : Int32
  mask : UInt32
  cookie : UInt32
  len : UInt32
  deriving DecidableEq, Repr

/-- `sizeof(struct inotify_event)` -/
def sizeofEvent : Nat := 16

def loadEvent (order : Order) (buf : Bytes) (p : Nat) : Except Fault InotifyEvent := do
  let wd ← word order buf p
  let mask ← word order buf (p + 4)
  let cookie ← word order buf (p + 8)
  let len ← word order buf (p + 12)
  .ok ⟨wd.toInt32, mask, cookie, len⟩

/-! ## demo_inotify.c -/

def ascii (s : String) : Bytes := s.toList.map fun c => UInt8.ofNat c.toNat

/-- `%nd` -/
def decimal (n : Nat) (x : Int) : String :=
  let s := toString x
  "".pushn ' ' (n - s.length) ++ s

/-- The masks that are tested, in this order, and what is printed for each. -/
def maskNames : List (UInt32 × String) := [
  (0x00000001, "IN_ACCESS "),
  (0x00000004, "IN_ATTRIB "),
  (0x00000010, "IN_CLOSE_NOWRITE "),
  (0x00000008, "IN_CLOSE_WRITE "),
  (0x00000100, "IN_CREATE "),
  (0x00000200, "IN_DELETE "),
  (0x00000400, "IN_DELETE_SELF "),
  (0x00008000, "IN_IGNORED "),
  (0x40000000, "IN_ISDIR "),
  (0x00000002, "IN_MODIFY "),
  (0x00000800, "IN_MOVE_SELF "),
  (0x00000040, "IN_MOVED_FROM "),
  (0x00000080, "IN_MOVED_TO "),
  (0x00000020, "IN_OPEN "),
  (0x00004000, "IN_Q_OVERFLOW "),
  (0x00002000, "IN_UNMOUNT ")]

/-- The line of an event. -/
def line (i : InotifyEvent) : Bytes :=
  ascii ("    wd =" ++ decimal 2 i.wd.toInt ++ "; ") ++
    (if 0 < i.cookie then ascii ("cookie =" ++ decimal 4 i.cookie.toInt32.toInt ++ "; ") else []) ++
    ascii "mask = " ++
    (maskNames.flatMap fun m => if i.mask &&& m.1 ≠ 0 then ascii m.2 else []) ++
    ascii "\n"

def nameLine (name : Bytes) : Bytes := ascii "        name = " ++ name ++ ascii "\n"

def displayInotifyEvent (order : Order) (buf : Bytes) (p : Nat) : Except Fault Bytes := do
  let i ← loadEvent order buf p
  if 0 < i.len then do
    let name ← cstring (buf.drop (p + sizeofEvent))
    .ok (line i ++ nameLine name)
  else
    .ok (line i)

/-- `for (p = buf; p < buf + numRead; )`, from `p` on. -/
def processEvents (order : Order) (buf : Bytes) (p : Nat) : Except Fault Bytes :=
  if p < buf.length then do
    let text ← displayInotifyEvent order buf p
    let event ← loadEvent order buf p
    let rest ← processEvents order buf (p + (sizeofEvent + event.len.toNat))
    .ok (text ++ rest)
  else
    .ok []
termination_by buf.length - p
decreasing_by
  unfold sizeofEvent
  omega

/-- How the program stands after the reads. -/
inductive Outcome where
  | waiting  -- for the next one
  | fatal    -- one returned no byte
  | errExit  -- one failed
  deriving DecidableEq, Repr

/-- `for (;;)`; a read that fails is `none`. -/
def readEvents (order : Order) : List (Option Bytes) → Except Fault (Bytes × Outcome)
  | [] => .ok ([], .waiting)
  | none :: _ => .ok ([], .errExit)
  | some [] :: _ => .ok ([], .fatal)
  | some buf :: reads => do
    let text ← processEvents order buf 0
    let (rest, outcome) ← readEvents order reads
    .ok (ascii ("Read " ++ toString buf.length ++ " bytes from inotify fd\n") ++ text ++ rest,
      outcome)

/-! ## watch_test.c -/

/-- `IN_MODIFY` -/
def inModify : UInt32 := 2

/-- What the loop did: where `event` pointed to, what was printed, and `exec`. -/
structure Pass where
  visited : List Nat
  text : Bytes
  exec : Bool
  deriving DecidableEq, Repr

/-- A round up to `Move to next struct`. -/
def reportEvent (order : Order) (buf : Bytes) (event : Nat) : Except Fault (Bytes × Bool) := do
  let e ← loadEvent order buf event
  if e.mask &&& inModify ≠ 0 then do
    let name ← cstring (buf.drop (event + sizeofEvent))
    .ok (ascii "File Modified: " ++ name ++ ascii "\n" ++
      ascii ("File Cookie: " ++ decimal 0 e.cookie.toInt32.toInt ++ "\n"), true)
  else
    .ok (ascii ("Unknown Mask 0x" ++ decimal 0 e.mask.toInt32.toInt ++ "\n") ++
      ascii ("Mask 0x" ++ decimal 0 inModify.toInt32.toInt ++ "\n"), false)

/-- `while (event != NULL)`; the subtraction is one of `size_t` that is stored in an `int`. -/
def watchEvents (order : Order) (buf : Bytes) (event : Nat) (len : Int) : Except Fault Pass :=
  if event < buf.length then do
    let (text, exec) ← reportEvent order buf event
    let e ← loadEvent order buf event
    let len := Int.bmod (len - (sizeofEvent + e.len.toNat)) (2 ^ 32)
    if 0 < len then do
      -- `sizeof(event)`, not `sizeof(*event)`
      let rest ← watchEvents order buf (event + (8 + e.len.toNat)) len
      .ok ⟨event :: rest.visited, text ++ rest.text, exec || rest.exec⟩
    else
      .ok ⟨[event], text, exec⟩
  else
    .error .unread
termination_by buf.length - event

/-! ## Events -/

/-- The four bytes of a word. -/
def wordBytes (order : Order) (x : UInt32) : Bytes :=
  let bytes := [x.toUInt8, (x >>> 8).toUInt8, (x >>> 16).toUInt8, (x >>> 24).toUInt8]
  match order with
  | .little => bytes
  | .big => bytes.reverse

/-- An event as it is read: its name, if it has one, has a NUL in it. -/
structure Event where
  wd : Int32
  mask : UInt32
  cookie : UInt32
  name : Bytes
  short : name.length < 2 ^ 32
  ended : name ≠ [] → 0 ∈ name

namespace Event

def header (e : Event) : InotifyEvent := ⟨e.wd, e.mask, e.cookie, UInt32.ofNat e.name.length⟩

def bytes (order : Order) (e : Event) : Bytes :=
  wordBytes order e.wd.toUInt32 ++ (wordBytes order e.mask ++ (wordBytes order e.cookie ++
    (wordBytes order (UInt32.ofNat e.name.length) ++ e.name)))

/-- The name up to its NUL. -/
def string (e : Event) : Bytes := e.name.takeWhile (· ≠ 0)

/-- What is to be printed for an event. -/
def text (e : Event) : Bytes := line e.header ++ if e.name = [] then [] else nameLine e.string

end Event

/-- Events one behind the other, as a `read` stores them. -/
def stream (order : Order) (es : List Event) : Bytes := es.flatMap (Event.bytes order)

@[simp] theorem length_wordBytes (order : Order) (x : UInt32) : (wordBytes order x).length = 4 := by
  cases order <;> rfl

theorem length_bytes (order : Order) (e : Event) :
    (e.bytes order).length = sizeofEvent + e.name.length := by
  simp only [Event.bytes, List.length_append, length_wordBytes, sizeofEvent]
  omega

theorem len_header (e : Event) : e.header.len.toNat = e.name.length := by
  rw [Event.header, UInt32.toNat_ofNat', Nat.mod_eq_of_lt e.short]

/-! ## An event where it begins -/

theorem byte_at {buf l : Bytes} {q : Nat} {x : UInt8} (h : buf.drop q = x :: l) :
    byte buf q = .ok x := by
  have hget : buf[q]? = some x := by
    rw [← List.head?_drop, h, List.head?_cons]
  rw [byte, hget]

theorem drop_add {α : Type} {buf s l : List α} {q : Nat} (n : Nat) (h : buf.drop q = s ++ l)
    (hn : s.length = n) : buf.drop (q + n) = l := by
  rw [← List.drop_drop, h, ← hn, List.drop_left]

theorem word_at {order : Order} {buf l : Bytes} {q : Nat} {x : UInt32}
    (h : buf.drop q = wordBytes order x ++ l) : word order buf q = .ok x := by
  have hword : ∀ y : UInt32, wordOf .little (y.toUInt8).toUInt32 ((y >>> 8).toUInt8).toUInt32
      ((y >>> 16).toUInt8).toUInt32 ((y >>> 24).toUInt8).toUInt32 = y := by
    intro y
    apply UInt32.toNat_inj.mp
    have hy := y.toNat_lt
    rw [toNat_wordOf]
    simp only [UInt32.toNat_toUInt8, UInt32.toNat_shiftRight, UInt32.reduceToNat,
      Nat.reduceMod, Nat.shiftRight_eq_div_pow, Nat.reducePow]
    omega
  have hbytes : ∀ x₀ x₁ x₂ x₃ : UInt8, buf.drop q = [x₀, x₁, x₂, x₃] ++ l →
      word order buf q = .ok (wordOf order x₀.toUInt32 x₁.toUInt32 x₂.toUInt32 x₃.toUInt32) := by
    intro x₀ x₁ x₂ x₃ h
    have h₁ := drop_add (s := [x₀]) 1 h rfl
    have h₂ := drop_add (s := [x₀, x₁]) 2 h rfl
    have h₃ := drop_add (s := [x₀, x₁, x₂]) 3 h rfl
    simp only [word, byte_at h, byte_at h₁, byte_at h₂, byte_at h₃, Runs.ok_bind]
  cases order with
  | little => rw [hbytes _ _ _ _ h, hword]
  | big => rw [hbytes _ _ _ _ h, wordOf_big, hword]

/-- The words of an event and its name, each where the one before it ends. -/
theorem drop_fields {order : Order} {buf l : Bytes} {p : Nat} {e : Event}
    (h : buf.drop p = e.bytes order ++ l) :
    (∃ l₁, buf.drop p = wordBytes order e.wd.toUInt32 ++ l₁) ∧
    (∃ l₂, buf.drop (p + 4) = wordBytes order e.mask ++ l₂) ∧
    (∃ l₃, buf.drop (p + 8) = wordBytes order e.cookie ++ l₃) ∧
    (∃ l₄, buf.drop (p + 12) = wordBytes order (UInt32.ofNat e.name.length) ++ l₄) ∧
    buf.drop (p + sizeofEvent) = e.name ++ l := by
  simp only [Event.bytes, List.append_assoc] at h
  have hmask := drop_add 4 h (length_wordBytes order _)
  have hcookie := drop_add 4 hmask (length_wordBytes order _)
  have hlen := drop_add 4 hcookie (length_wordBytes order _)
  have hname := drop_add 4 hlen (length_wordBytes order _)
  exact ⟨⟨_, h⟩, ⟨_, hmask⟩, ⟨_, hcookie⟩, ⟨_, hlen⟩, hname⟩

theorem drop_name {order : Order} {buf l : Bytes} {p : Nat} {e : Event}
    (h : buf.drop p = e.bytes order ++ l) : buf.drop (p + sizeofEvent) = e.name ++ l :=
  (drop_fields h).2.2.2.2

theorem loadEvent_at {order : Order} {buf l : Bytes} {p : Nat} {e : Event}
    (h : buf.drop p = e.bytes order ++ l) : loadEvent order buf p = .ok e.header := by
  obtain ⟨⟨_, hwd⟩, ⟨_, hmask⟩, ⟨_, hcookie⟩, ⟨_, hlen⟩, -⟩ := drop_fields h
  simp only [loadEvent, word_at hwd, word_at hmask, word_at hcookie, word_at hlen, Runs.ok_bind]
  rfl

theorem drop_event {order : Order} {buf l : Bytes} {p : Nat} {e : Event}
    (h : buf.drop p = e.bytes order ++ l) :
    buf.drop (p + (sizeofEvent + e.header.len.toNat)) = l :=
  drop_add _ h (by rw [length_bytes, len_header])

/-- A string ends at the first NUL, whatever follows. -/
theorem cstring_append (l : Bytes) : ∀ {s : Bytes}, 0 ∈ s →
    cstring (s ++ l) = .ok (s.takeWhile (· ≠ 0))
  | x :: s, h => by
    by_cases hx : x = 0
    · simp [cstring, hx]
    · have htail : (0 : UInt8) ∈ s := by
        rcases List.mem_cons.mp h with h | h
        · exact absurd h.symm hx
        · exact h
      simp [cstring, hx, cstring_append l htail]

theorem len_pos (e : Event) : 0 < e.header.len ↔ e.name ≠ [] := by
  rw [UInt32.lt_iff_toNat_lt, len_header, UInt32.toNat_zero, List.length_pos_iff]

theorem display_at {order : Order} {buf l : Bytes} {p : Nat} {e : Event}
    (h : buf.drop p = e.bytes order ++ l) : displayInotifyEvent order buf p = .ok e.text := by
  by_cases hname : e.name = []
  · have hlen : ¬ 0 < e.header.len := fun hpos => (len_pos e).mp hpos hname
    simp [displayInotifyEvent, loadEvent_at h, hlen, Event.text, hname]
  · have hlen : 0 < e.header.len := (len_pos e).mpr hname
    have hstring := cstring_append l (e.ended hname)
    rw [← drop_name h] at hstring
    simp [displayInotifyEvent, loadEvent_at h, hlen, hstring, Event.text, Event.string, hname]

/-! ## The first program -/

/-- One round: the event is printed and the pointer is at the next one. -/
theorem processEvents_step {order : Order} {buf l : Bytes} {p : Nat} {e : Event}
    (h : buf.drop p = e.bytes order ++ l) :
    processEvents order buf p = (do
      let rest ← processEvents order buf (p + (sizeofEvent + e.header.len.toNat))
      .ok (e.text ++ rest)) := by
  have hin : p < buf.length := by
    have hlen := congrArg List.length h
    rw [List.length_drop, List.length_append, length_bytes, sizeofEvent] at hlen
    omega
  rw [processEvents, if_pos hin, display_at h, Runs.ok_bind, loadEvent_at h, Runs.ok_bind]

theorem processEvents_stream {order : Order} {buf : Bytes} {es : List Event} {p : Nat}
    (h : buf.drop p = stream order es) :
    processEvents order buf p = .ok (es.flatMap Event.text) := by
  induction es generalizing p with
  | nil =>
    have hout : ¬ p < buf.length := by
      have hlen := congrArg List.length h
      rw [List.length_drop, stream, List.flatMap_nil, List.length_nil] at hlen
      omega
    rw [processEvents, if_neg hout, List.flatMap_nil]
  | cons e es ih =>
    rw [stream, List.flatMap_cons] at h
    rw [processEvents_step h, ih (drop_event h), Runs.ok_bind, List.flatMap_cons]

/-- What is to be printed for a read. -/
def readText (order : Order) (es : List Event) : Bytes :=
  ascii ("Read " ++ toString (stream order es).length ++ " bytes from inotify fd\n") ++
    es.flatMap Event.text

theorem stream_ne_nil (order : Order) {es : List Event} (h : es ≠ []) : stream order es ≠ [] := by
  cases es with
  | nil => exact absurd rfl h
  | cons e es =>
    intro hnil
    have hlen := congrArg List.length hnil
    rw [stream, List.flatMap_cons, List.length_append, length_bytes, sizeofEvent,
      List.length_nil] at hlen
    omega

theorem readEvents_cons {order : Order} {buf : Bytes} (hbuf : buf ≠ [])
    (reads : List (Option Bytes)) :
    readEvents order (some buf :: reads) = (do
      let text ← processEvents order buf 0
      let (rest, outcome) ← readEvents order reads
      .ok (ascii ("Read " ++ toString buf.length ++ " bytes from inotify fd\n") ++ text ++ rest,
        outcome)) := by
  cases buf with
  | nil => exact absurd rfl hbuf
  | cons x buf => rfl

/-- However the events are spread over reads, all of them are printed in order, each as it is and
    none twice, without a look behind the bytes of a read; and whatever comes next, a further read
    or one that ends the program, finds the program as it was at the beginning. -/
theorem demo_displays (order : Order) (reads : List (Option Bytes)) (ess : List (List Event))
    (hne : ∀ es ∈ ess, es ≠ []) :
    readEvents order (ess.map (fun es => some (stream order es)) ++ reads) = (do
      let (rest, outcome) ← readEvents order reads
      .ok (ess.flatMap (readText order) ++ rest, outcome)) := by
  induction ess with
  | nil =>
    rw [List.map_nil, List.nil_append]
    cases readEvents order reads with
    | error fault => rfl
    | ok r => rfl
  | cons es ess ih =>
    obtain ⟨hes, hess⟩ := List.forall_mem_cons.mp hne
    have hread : processEvents order (stream order es) 0 = .ok (es.flatMap Event.text) :=
      processEvents_stream List.drop_zero
    rw [List.map_cons, List.cons_append, readEvents_cons (stream_ne_nil order hes), hread,
      Runs.ok_bind, ih hess]
    cases readEvents order reads with
    | error fault => simp only [Runs.error_bind]
    | ok r =>
      simp only [Runs.ok_bind, List.flatMap_cons, readText, List.append_assoc]

/-- The file `a` of a directory is modified. -/
def saved : Event := ⟨1, 2, 0, [97, 0, 0, 0], by decide, fun _ => by decide⟩

theorem demo_displays_two :
    readEvents .big [some (stream .big [saved, saved]), some (stream .big [saved]), some []] =
      .ok (readText .big [saved, saved] ++ readText .big [saved], .fatal) := by
  have hne : ∀ es ∈ [[saved, saved], [saved]], es ≠ [] := by simp
  have hrun := demo_displays .big [some []] [[saved, saved], [saved]] hne
  simpa [readEvents] using hrun

/-! ## The second program -/

/-- The event changes a file. -/
def Event.Modifies (e : Event) : Prop := e.mask &&& inModify ≠ 0

instance (e : Event) : Decidable e.Modifies := inferInstanceAs (Decidable (_ ≠ _))

/-- What is to be printed for an event. -/
def Event.report (e : Event) : Bytes :=
  if e.Modifies then
    ascii "File Modified: " ++ e.string ++ ascii "\n" ++
      ascii ("File Cookie: " ++ decimal 0 e.cookie.toInt32.toInt ++ "\n")
  else
    ascii ("Unknown Mask 0x" ++ decimal 0 e.mask.toInt32.toInt ++ "\n") ++
      ascii ("Mask 0x" ++ decimal 0 inModify.toInt32.toInt ++ "\n")

/-- Where the events begin. -/
def starts (p : Nat) : List Event → List Nat
  | [] => []
  | e :: es => p :: starts (p + (sizeofEvent + e.name.length)) es

/-- A loop that looks at every event. -/
def wholePass (es : List Event) : Pass :=
  ⟨starts 0 es, es.flatMap Event.report, es.any fun e => e.Modifies⟩

theorem report_at {order : Order} {buf l : Bytes} {p : Nat} {e : Event}
    (h : buf.drop p = e.bytes order ++ l) (hname : e.Modifies → e.name ≠ []) :
    reportEvent order buf p = .ok (e.report, decide e.Modifies) := by
  by_cases hmod : e.Modifies
  · have hmask : e.header.mask &&& inModify ≠ 0 := hmod
    have hstring := cstring_append l (e.ended (hname hmod))
    rw [← drop_name h] at hstring
    rw [reportEvent, loadEvent_at h, Runs.ok_bind, if_pos hmask, hstring, Event.report,
      if_pos hmod, decide_eq_true hmod]
    rfl
  · have hmask : ¬ e.header.mask &&& inModify ≠ 0 := hmod
    rw [reportEvent, loadEvent_at h, Runs.ok_bind, if_neg hmask, Event.report, if_neg hmod,
      decide_eq_false hmod]
    rfl

/-- The name of an event without one begins behind the event. -/
theorem report_unread {order : Order} {buf : Bytes} {p : Nat} {e : Event}
    (h : buf.drop p = e.bytes order) (hmod : e.Modifies) (hname : e.name = []) :
    reportEvent order buf p = .error .unread := by
  rw [← List.append_nil (e.bytes order)] at h
  have hmask : e.header.mask &&& inModify ≠ 0 := hmod
  have hdrop := drop_name h
  rw [hname, List.append_nil] at hdrop
  rw [reportEvent, loadEvent_at h, Runs.ok_bind, if_pos hmask, hdrop]
  rfl

/-- The rest of a buffer of the size of that of the program. -/
theorem len_after {e : Event} {n : Nat} (hn : n ≤ 4096) :
    Int.bmod ((sizeofEvent + e.name.length + n : Nat) - (sizeofEvent + e.header.len.toNat))
      (2 ^ 32) = n := by
  rw [len_header]
  have hsub : ((sizeofEvent + e.name.length + n : Nat) : Int) -
      (sizeofEvent + e.name.length) = n := by
    omega
  rw [hsub]
  apply Int.bmod_eq_of_le
  · omega
  · omega

theorem watch_visits {order : Order} {buf : Bytes} {p : Nat} {len : Int} {r : Pass}
    (h : watchEvents order buf p len = .ok r) : ∃ v, r.visited = p :: v := by
  rw [watchEvents] at h
  split at h
  · obtain ⟨⟨text, exec⟩, -, h⟩ := Runs.bind_eq_ok.mp h
    obtain ⟨e, -, h⟩ := Runs.bind_eq_ok.mp h
    dsimp only at h
    split at h
    · obtain ⟨rest, -, h⟩ := Runs.bind_eq_ok.mp h
      obtain rfl := Except.ok.inj h
      exact ⟨rest.visited, rfl⟩
    · obtain rfl := Except.ok.inj h
      exact ⟨[], rfl⟩
  · cases h

/-- The first round, if it ends: the pointer moves on if there is more, by 8 bytes too few. -/
theorem watch_first {order : Order} {buf l : Bytes} {e : Event} {r : Bytes × Bool}
    (h : buf = e.bytes order ++ l) (hl : l.length ≤ 4096)
    (hreport : reportEvent order buf 0 = .ok r) :
    watchEvents order buf 0 buf.length =
      if l = [] then .ok ⟨[0], r.1, r.2⟩ else (do
        let rest ← watchEvents order buf (8 + e.name.length) l.length
        .ok ⟨0 :: rest.visited, r.1 ++ rest.text, r.2 || rest.exec⟩) := by
  have hdrop : buf.drop 0 = e.bytes order ++ l := h
  have hlen : buf.length = sizeofEvent + e.name.length + l.length := by
    rw [h, List.length_append, length_bytes]
  have hin : 0 < buf.length := by
    rw [hlen, sizeofEvent]
    omega
  obtain ⟨text, exec⟩ := r
  rw [watchEvents, if_pos hin, hreport, Runs.ok_bind]
  dsimp only
  rw [loadEvent_at hdrop, Runs.ok_bind, hlen, len_after hl, len_header, Nat.zero_add]
  by_cases hnil : l = []
  · rw [if_pos hnil, hnil]
    rfl
  · have hpos : (0 : Int) < l.length := by
      have := List.length_pos_iff.mpr hnil
      omega
    rw [if_neg hnil]
    exact if_pos hpos

/-- The loop looks at the events of a read, one after the other, iff there is a single one, and
    this has a name or changes no file. -/
theorem watch_exact (order : Order) {es : List Event} (hne : es ≠ [])
    (hfit : (stream order es).length ≤ 4096) :
    watchEvents order (stream order es) 0 (stream order es).length = .ok (wholePass es) ↔
      ∃ e, es = [e] ∧ (e.Modifies → e.name ≠ []) := by
  cases es with
  | nil => exact absurd rfl hne
  | cons e es =>
    have hstream : stream order (e :: es) = e.bytes order ++ stream order es := List.flatMap_cons
    have hrest : (stream order es).length ≤ 4096 := by
      rw [hstream, List.length_append] at hfit
      omega
    refine ⟨fun h => ?_, fun h => ?_⟩
    · -- the first report did not fault
      have hreport : ∃ r, reportEvent order (stream order (e :: es)) 0 = .ok r := by
        rw [watchEvents] at h
        split at h
        · obtain ⟨r, hr, -⟩ := Runs.bind_eq_ok.mp h
          exact ⟨r, hr⟩
        · cases h
      obtain ⟨r, hr⟩ := hreport
      rw [watch_first hstream hrest hr] at h
      cases es with
      | nil =>
        refine ⟨e, rfl, fun hmod hname => ?_⟩
        have hdrop : (stream order [e]).drop 0 = e.bytes order := by
          rw [List.drop_zero, hstream, stream, List.flatMap_nil, List.append_nil]
        rw [report_unread hdrop hmod hname] at hr
        cases hr
      | cons e' es =>
        rw [if_neg (stream_ne_nil order (List.cons_ne_nil e' es))] at h
        obtain ⟨rest, hwatch, h⟩ := Runs.bind_eq_ok.mp h
        obtain ⟨v, hv⟩ := watch_visits hwatch
        have hvisited := congrArg Pass.visited (Except.ok.inj h)
        simp only [hv, wholePass, starts, List.cons.injEq, sizeofEvent] at hvisited
        omega
    · obtain ⟨e', heq, hname⟩ := h
      obtain ⟨rfl, rfl⟩ := List.cons.inj heq
      have hdrop : (stream order [e]).drop 0 = e.bytes order ++ stream order [] := hstream
      rw [watch_first hstream hrest (report_at hdrop hname), if_pos (by rfl)]
      simp [wholePass, starts]

theorem watch_exact_two :
    watchEvents .little (stream .little [saved]) 0 (stream .little [saved]).length =
      .ok (wholePass [saved]) ∧
    watchEvents .little (stream .little [saved, saved]) 0 (stream .little [saved, saved]).length ≠
      .ok (wholePass [saved, saved]) := by
  refine ⟨(watch_exact .little (List.cons_ne_nil _ _) (by decide)).mpr ?_, fun h => ?_⟩
  · exact ⟨saved, rfl, fun _ => List.cons_ne_nil _ _⟩
  · obtain ⟨e, heq, -⟩ := (watch_exact .little (List.cons_ne_nil _ _) (by decide)).mp h
    cases congrArg List.length heq

end DataMonkey.Inotify
