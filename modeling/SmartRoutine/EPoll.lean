import Mathlib.Logic.Function.Basic
import SmartRoutine.Lib.Transition

/-!
# Items, `watch_event` and the kernel's interest set

`EPollItem` keeps the events it wants and a flag for whether it believes to be registered; the
kernel keeps at most one entry for each descriptor.  `watchEvent` chooses the `epoll_ctl` operation
from the item's flag and ignores its result.

* `epollCtl` — Linux: `ADD` fails when the descriptor is present, `MOD` and `DEL` when it is absent.
* `Agrees` — what items and kernel should agree on.
* `run_agrees_iff` — a sequence of calls keeps them in agreement **exactly** when each call finds
  no entry of another item for its descriptor (`ownsEntry`).
* `reader_and_writer_disagree` — a reader and a writer of one descriptor.
-/

set_option autoImplicit false

namespace SmartRoutine

/-- An event mask. -/
abbrev Events := BitVec 32

def EPOLLIN : Events := 0x001
def EPOLLPRI : Events := 0x002
def EPOLLOUT : Events := 0x004
def EPOLLERR : Events := 0x008
def EPOLLHUP : Events := 0x010
def EPOLLRDHUP : Events := 0x2000

/-- The callbacks of an item, in the order in which `handle_events` considers them. -/
inductive Callback where
  | close
  | error
  | read
  | write
  deriving DecidableEq, Repr

/-- The reported events that trigger a callback. -/
def Callback.mask : Callback → Events
  | .close => EPOLLHUP
  | .error => EPOLLERR
  | .read => EPOLLIN ||| EPOLLPRI ||| EPOLLRDHUP
  | .write => EPOLLOUT

/-- An item; a callback is represented by whether it is set. -/
structure EPollItem where
  fd : Int
  events : Events
  revents : Events
  readCallback : Bool
  writeCallback : Bool
  closeCallback : Bool
  errorCallback : Bool
  watching : Bool
  deriving DecidableEq, Repr

namespace EPollItem

/-- `EPollItem(fd, epoller)`. -/
def new (fd : Int) : EPollItem := ⟨fd, 0, 0, false, false, false, false, false⟩

def isDisabled (item : EPollItem) : Bool := item.events = 0

def callback (item : EPollItem) : Callback → Bool
  | .close => item.closeCallback
  | .error => item.errorCallback
  | .read => item.readCallback
  | .write => item.writeCallback

/-- The callbacks `handle_events` calls, in order. -/
def handleEvents (item : EPollItem) : List Callback :=
  [.close, .error, .read, .write].filter fun c => item.revents &&& c.mask ≠ 0 && item.callback c

end EPollItem

/-! ## The kernel -/

/-- An entry of the interest set: the events and the item in `event.data.ptr`. -/
structure EpollEntry (ι : Type) where
  events : Events
  ptr : ι
  deriving DecidableEq, Repr

inductive EpollOp where
  | add
  | mod
  | del
  deriving DecidableEq, Repr

section

variable {ι : Type}

/-- `epoll_ctl`: the result and the interest set afterwards. -/
def epollCtl (interest : Int → Option (EpollEntry ι)) (op : EpollOp) (fd : Int)
    (event : EpollEntry ι) : Int × (Int → Option (EpollEntry ι)) :=
  match op, interest fd with
  | .add, none => (0, Function.update interest fd (some event))
  | .add, some _ => (-1, interest) -- EEXIST
  | .mod, some _ => (0, Function.update interest fd (some event))
  | .mod, none => (-1, interest) -- ENOENT
  | .del, some _ => (0, Function.update interest fd none)
  | .del, none => (-1, interest) -- ENOENT

/-! ## The epoller -/

/-- The one epoller, with its interest set in the kernel and all its items. -/
structure SmartEPoller (ι : Type) where
  items : ι → EPollItem
  interest : Int → Option (EpollEntry ι)
  /-- Items of the batch `epoll_wait` returned last. -/
  readyList : List ι

namespace SmartEPoller

variable [DecidableEq ι]

def setItem (s : SmartEPoller ι) (i : ι) (item : EPollItem) : SmartEPoller ι :=
  { s with items := Function.update s.items i item }

def watchEvent (s : SmartEPoller ι) (i : ι) : SmartEPoller ι × Int :=
  let item := s.items i
  if item.watching then
    if item.isDisabled then
      let (ret, interest) := epollCtl s.interest .del item.fd ⟨item.events, i⟩
      ({ s with interest := interest }.setItem i { item with watching := false }, ret)
    else
      let (ret, interest) := epollCtl s.interest .mod item.fd ⟨item.events, i⟩
      ({ s with interest := interest }, ret)
  else
    let (ret, interest) := epollCtl s.interest .add item.fd ⟨item.events, i⟩
    ({ s with interest := interest }.setItem i { item with watching := true }, ret)

/-- Set the wanted events and `update()`. -/
def updateEvents (s : SmartEPoller ι) (i : ι) (events : Events) : SmartEPoller ι :=
  ((s.setItem i { s.items i with events := events }).watchEvent i).1

def enableReading (s : SmartEPoller ι) (i : ι) : SmartEPoller ι :=
  s.updateEvents i ((s.items i).events ||| EPOLLIN)

def disableReading (s : SmartEPoller ι) (i : ι) : SmartEPoller ι :=
  s.updateEvents i ((s.items i).events &&& ~~~EPOLLIN)

def enableWriting (s : SmartEPoller ι) (i : ι) : SmartEPoller ι :=
  s.updateEvents i ((s.items i).events ||| EPOLLOUT)

def disableWriting (s : SmartEPoller ι) (i : ι) : SmartEPoller ι :=
  s.updateEvents i ((s.items i).events &&& ~~~EPOLLOUT)

def disableAll (s : SmartEPoller ι) (i : ι) : SmartEPoller ι := s.updateEvents i 0

end SmartEPoller

/-! ## The calls on an item -/

inductive ItemOp where
  | enableReading
  | disableReading
  | enableWriting
  | disableWriting
  | disableAll
  deriving DecidableEq, Repr

/-- The events an item wants after a call. -/
def ItemOp.events : ItemOp → Events → Events
  | .enableReading, e => e ||| EPOLLIN
  | .disableReading, e => e &&& ~~~EPOLLIN
  | .enableWriting, e => e ||| EPOLLOUT
  | .disableWriting, e => e &&& ~~~EPOLLOUT
  | .disableAll, _ => 0

variable [DecidableEq ι]

/-- One call on an item. -/
def SmartEPoller.step (s : SmartEPoller ι) : ι × ItemOp → Option (SmartEPoller ι)
  | (i, .enableReading) => some (s.enableReading i)
  | (i, .disableReading) => some (s.disableReading i)
  | (i, .enableWriting) => some (s.enableWriting i)
  | (i, .disableWriting) => some (s.disableWriting i)
  | (i, .disableAll) => some (s.disableAll i)

/-- What a blocking call waits for: it uses an item of its own, with one callback. -/
inductive Direction where
  | reading
  | writing
  deriving DecidableEq, Repr

def Direction.event : Direction → Events
  | .reading => EPOLLIN
  | .writing => EPOLLOUT

def Direction.callback : Direction → Callback
  | .reading => .read
  | .writing => .write

/-- What an item wants once a call has enabled it. -/
@[simp] theorem Direction.set_event (d : Direction) : 0 ||| d.event = d.event := by cases d <;> rfl

/-- A disabled item wants nothing. -/
@[simp] theorem Direction.clear_event (d : Direction) : d.event &&& ~~~d.event = 0 := by
  cases d <;> rfl

/-- The item a blocking call makes on its stack, with its callback set. -/
def EPollItem.forCall (fd : Int) : Direction → EPollItem
  | .reading => { EPollItem.new fd with readCallback := true }
  | .writing => { EPollItem.new fd with writeCallback := true }

namespace SmartEPoller

/-- `enable_reading` or `enable_writing`. -/
def enable (s : SmartEPoller ι) (d : Direction) (i : ι) : SmartEPoller ι :=
  match d with
  | .reading => s.enableReading i
  | .writing => s.enableWriting i

/-- `disable_reading` or `disable_writing`. -/
def disable (s : SmartEPoller ι) (d : Direction) (i : ι) : SmartEPoller ι :=
  match d with
  | .reading => s.disableReading i
  | .writing => s.disableWriting i

theorem enable_eq (s : SmartEPoller ι) (d : Direction) (i : ι) :
    s.enable d i = s.updateEvents i ((s.items i).events ||| d.event) := by
  cases d <;> rfl

theorem disable_eq (s : SmartEPoller ι) (d : Direction) (i : ι) :
    s.disable d i = s.updateEvents i ((s.items i).events &&& ~~~d.event) := by
  cases d <;> rfl

/-- Every call is one `updateEvents`. -/
theorem step_eq (s : SmartEPoller ι) (i : ι) (op : ItemOp) :
    s.step (i, op) = some (s.updateEvents i (op.events (s.items i).events)) := by
  cases op <;> rfl

/-! ## Agreement -/

/-- Items and kernel agree: wanted events are registered and reported to the item, and the flag
says whether the item has an entry. -/
structure Agrees (s : SmartEPoller ι) : Prop where
  registered : ∀ i, (s.items i).events ≠ 0 →
    s.interest (s.items i).fd = some ⟨(s.items i).events, i⟩
  watching : ∀ i, (s.items i).watching = true ↔
    ∃ e, s.interest (s.items i).fd = some e ∧ e.ptr = i

/-- The kernel's entry for the item's descriptor, if there is one, is the item's own. -/
def ownsEntry (s : SmartEPoller ι) (i : ι) : Bool :=
  (s.interest (s.items i).fd).all fun e => e.ptr = i

variable {s s' : SmartEPoller ι} {i j : ι} {ev : Events}

theorem ownsEntry_iff :
    s.ownsEntry i = true ↔ ∀ e, s.interest (s.items i).fd = some e → e.ptr = i := by
  unfold ownsEntry
  cases s.interest (s.items i).fd <;> simp

/-! ### What `updateEvents` does -/

/-- The item's own entry, if it has one, becomes the wanted one. -/
def entryFor (i : ι) (ev : Events) : Option (EpollEntry ι) := if ev = 0 then none else some ⟨ev, i⟩

/-- A registered item: `MOD`, or `DEL` when nothing is wanted any more. -/
theorem updateEvents_watching (ev : Events) (hw : (s.items i).watching = true) {e : EpollEntry ι}
    (he : s.interest (s.items i).fd = some e) :
    (s.updateEvents i ev).interest = Function.update s.interest (s.items i).fd (entryFor i ev) ∧
      (s.updateEvents i ev).items =
        Function.update s.items i { s.items i with events := ev, watching := decide (ev ≠ 0) } := by
  by_cases hev : ev = 0#32
  · simp [updateEvents, watchEvent, setItem, hw, EPollItem.isDisabled, hev, epollCtl, he, entryFor]
  · simp [updateEvents, watchEvent, setItem, hw, EPollItem.isDisabled, hev, epollCtl, he, entryFor]

/-- An item not registered, on a free descriptor: `ADD`, also when nothing is wanted. -/
theorem updateEvents_fresh (ev : Events) (hw : (s.items i).watching = false)
    (he : s.interest (s.items i).fd = none) :
    (s.updateEvents i ev).interest = Function.update s.interest (s.items i).fd (some ⟨ev, i⟩) ∧
      (s.updateEvents i ev).items =
        Function.update s.items i { s.items i with events := ev, watching := true } := by
  simp [updateEvents, watchEvent, setItem, hw, epollCtl, he]

/-- An item not registered, on a descriptor that is: `ADD` fails, and the flag is set anyway. -/
theorem updateEvents_taken (ev : Events) (hw : (s.items i).watching = false) {e : EpollEntry ι}
    (he : s.interest (s.items i).fd = some e) :
    (s.updateEvents i ev).interest = s.interest ∧ (s.updateEvents i ev).items =
      Function.update s.items i { s.items i with events := ev, watching := true } := by
  simp [updateEvents, watchEvent, setItem, hw, epollCtl, he]

/-- A registered item that wants nothing any more: its descriptor leaves the interest set. -/
theorem updateEvents_zero (hw : (s.items i).watching = true) :
    (s.updateEvents i 0).interest = Function.update s.interest (s.items i).fd none ∧
      (s.updateEvents i 0).items =
        Function.update s.items i { s.items i with events := 0, watching := false } := by
  cases he : s.interest (s.items i).fd with
  | none =>
    have hsame : Function.update s.interest (s.items i).fd none = s.interest := by
      rw [Function.update_eq_self_iff, he]
    rw [hsame]
    simp [updateEvents, watchEvent, setItem, hw, EPollItem.isDisabled, epollCtl, he]
  | some e => exact updateEvents_watching 0 hw he

/-- A call changes neither the reported events of any item nor the ready list. -/
theorem updateEvents_revents (s : SmartEPoller ι) (i : ι) (ev : Events) :
    (∀ j, ((s.updateEvents i ev).items j).revents = (s.items j).revents) ∧
      (s.updateEvents i ev).readyList = s.readyList := by
  have hset : ∀ (item : EPollItem), item.revents = (s.items i).revents →
      ∀ j, (Function.update s.items i item j).revents = (s.items j).revents := by
    intro item hitem j
    by_cases e : j = i
    · subst e; rw [Function.update_self, hitem]
    · rw [Function.update_of_ne e]
  unfold updateEvents watchEvent
  dsimp only
  split
  · split
    · refine ⟨?_, rfl⟩
      simp only [setItem, Function.update_idem, Function.update_self]
      exact hset _ rfl
    · exact ⟨hset _ rfl, rfl⟩
  · refine ⟨?_, rfl⟩
    simp only [setItem, Function.update_idem, Function.update_self]
    exact hset _ rfl

theorem disable_readyList (s : SmartEPoller ι) (d : Direction) (i : ι) :
    (s.disable d i).readyList = s.readyList := by
  rw [disable_eq]
  exact (updateEvents_revents s i _).2

/-- Replacing the item's record and the entry of its descriptor keeps the agreement if no other
item had that entry. -/
theorem Agrees.update (h : Agrees s) (hown : s.ownsEntry i = true) {item : EPollItem}
    {entry : Option (EpollEntry ι)}
    (hi : s'.interest = Function.update s.interest (s.items i).fd entry)
    (ht : s'.items = Function.update s.items i item) (hfd : item.fd = (s.items i).fd)
    (hreg : item.events ≠ 0 → entry = some ⟨item.events, i⟩)
    (hwatch : item.watching = true ↔ ∃ e, entry = some e ∧ e.ptr = i)
    (hptr : ∀ e, entry = some e → e.ptr = i) : Agrees s' := by
  have hown' := ownsEntry_iff.1 hown
  refine ⟨fun j hj => ?_, fun j => ?_⟩
  · by_cases e : j = i
    · subst e
      simp only [ht, Function.update_self, hfd, hi] at hj ⊢
      exact hreg hj
    · simp only [ht, Function.update_of_ne e] at hj ⊢
      have hreg' := h.registered j hj
      by_cases efd : (s.items j).fd = (s.items i).fd
      · exact absurd (hown' _ (efd ▸ hreg')) e
      · rw [hi, Function.update_of_ne efd, hreg']
  · by_cases e : j = i
    · subst e
      simp only [ht, Function.update_self, hfd, hi]
      exact hwatch
    · simp only [ht, Function.update_of_ne e]
      by_cases efd : (s.items j).fd = (s.items i).fd
      · rw [hi, efd, Function.update_self, h.watching j, efd]
        constructor
        · rintro ⟨e', he', hp⟩; exact absurd (hp.symm.trans (hown' e' he')) e
        · rintro ⟨e', he', hp⟩; exact absurd (hp.symm.trans (hptr e' he')) e
      · rw [hi, Function.update_of_ne efd, h.watching j]

/-- **One call keeps the agreement exactly when the descriptor carries no other item's entry.** -/
theorem updateEvents_agrees_iff (h : Agrees s) (i : ι) (ev : Events) :
    Agrees (s.updateEvents i ev) ↔ s.ownsEntry i = true := by
  cases hw : (s.items i).watching with
  | true =>
    obtain ⟨e, he, hp⟩ := (h.watching i).1 hw
    have hown : s.ownsEntry i = true := ownsEntry_iff.2 fun e' he' => by
      rw [he] at he'; cases he'; exact hp
    obtain ⟨hi, ht⟩ := updateEvents_watching ev hw he
    refine ⟨fun _ => hown, fun _ => h.update hown hi ht rfl ?_ ?_ ?_⟩
    · intro hev; exact if_neg hev
    · by_cases hev : ev = 0#32 <;> simp [entryFor, hev]
    · intro e' he'
      by_cases hev : ev = 0
      · simp [entryFor, hev] at he'
      · simp only [entryFor, hev, if_false, Option.some.injEq] at he'; rw [← he']
  | false =>
    cases he : s.interest (s.items i).fd with
    | none =>
      have hown : s.ownsEntry i = true := ownsEntry_iff.2 fun e' he' => by rw [he] at he'; cases he'
      obtain ⟨hi, ht⟩ := updateEvents_fresh ev hw he
      refine ⟨fun _ => hown, fun _ => h.update hown hi ht rfl (fun _ => rfl) ?_ ?_⟩
      · simp
      · intro e' he'; cases he'; rfl
    | some e =>
      have hother : e.ptr ≠ i := fun hp => by
        rw [(h.watching i).2 ⟨e, he, hp⟩] at hw; cases hw
      obtain ⟨hi, ht⟩ := updateEvents_taken ev hw he
      refine ⟨fun h' => ?_, fun hown => absurd (ownsEntry_iff.1 hown e he) hother⟩
      -- the flag now claims an entry that is another item's
      have hflag := (h'.watching i).1 (by rw [ht, Function.update_self])
      rw [hi, ht, Function.update_self] at hflag
      obtain ⟨e', he', hp⟩ := hflag
      rw [he] at he'
      cases he'
      exact absurd hp hother

/-! ## Runs -/

/-- No item wants or has anything yet. -/
def fresh (fd : ι → Int) : SmartEPoller ι := ⟨fun i => .new (fd i), fun _ => none, []⟩

omit [DecidableEq ι] in
theorem fresh_agrees (fd : ι → Int) : Agrees (fresh fd) :=
  ⟨fun _ h => absurd rfl h, fun i => ⟨fun h => (by cases h), fun ⟨_, h, _⟩ => (by cases h)⟩⟩

/-- **Items and kernel agree after every call exactly when each call was made on a descriptor that
carried no other item's entry.** -/
theorem run_agrees_iff (fd : ι → Int) (ops : List (ι × ItemOp)) :
    Transition.Always step Agrees (fresh fd) ops ↔
      Transition.Guarded step (fun s op => s.ownsEntry op.1) (fresh fd) ops := by
  refine Transition.always_iff_guarded (J := fun _ => True) (fun _ _ _ _ _ _ _ => trivial) ?_ ops _
    trivial (fresh_agrees fd)
  rintro s ⟨i, op⟩ s' - h hstep
  rw [step_eq, Option.some.injEq] at hstep
  subst hstep
  exact updateEvents_agrees_iff h i _

/-- **A reader and a writer of one descriptor**: the writer's `ADD` fails with `EEXIST`, so what it
waits for is not registered although its flag says so. -/
theorem reader_and_writer_disagree :
    ¬ Transition.Always step Agrees (fresh fun _ : Bool => 5)
      [(false, .enableReading), (true, .enableWriting)] := by
  intro h
  have hreg := (Transition.always_iff_prefix.1 h _ [] _ (List.append_nil _).symm rfl).registered true
    (by decide +kernel)
  exact absurd hreg (by decide +kernel)

end SmartEPoller

end

end SmartRoutine
