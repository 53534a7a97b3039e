import SmartRoutine.EPoll

/-!
# The event loop

`SmartEPoller::eventloop` over any sequence of results of `epoll_wait`.  What the callbacks called
by `handle_events` do to the epoller is arbitrary: `react` gives the calls on items they make.

* `eventloop` — the calls of `handle_events`, one list for each iteration.
* `eventloop_exactlyOnce_iff` — every report is dispatched once **exactly** when no wait comes back
  empty-handed after a batch and no batch reports one item with two different masks (`Clean`).
* `interrupted_wait_repeats` — a batch followed by `EINTR` is dispatched twice.

`ready_list_` is cleared only when a batch arrives, but it is dispatched in every iteration.
-/

set_option autoImplicit false

namespace SmartRoutine

def EINTR : Int := 4

/-- `struct epoll_event`; `none` is a null `data.ptr`. -/
structure EpollEvent (ι : Type) where
  events : Events
  ptr : Option ι
  deriving DecidableEq, Repr

/-- What `epoll_wait` comes back with: `ready_num` events (none at a timeout), or an error. -/
inductive WaitResult (ι : Type) where
  | ready (evlist : List (EpollEvent ι))
  | failed (errno : Int)
  deriving DecidableEq, Repr

/-- One call of `handle_events`: the item and its `revents_`. -/
abbrev Report (ι : Type) := ι × Events

section

variable {ι : Type}

def EpollEvent.report (e : EpollEvent ι) : Option (Report ι) := e.ptr.map fun i => (i, e.events)

/-- The reports of a batch. -/
def reports (evlist : List (EpollEvent ι)) : List (Report ι) := evlist.filterMap (·.report)

section

variable [DecidableEq ι]

/-- One turn of the loop over `evlist_`. -/
def takeEvent (s : SmartEPoller ι) (e : EpollEvent ι) : SmartEPoller ι :=
  match e.ptr with
  | some i =>
    { s.setItem i { s.items i with revents := e.events } with readyList := s.readyList ++ [i] }
  | none => s

/-- The iteration up to the dispatch; `none` when the loop returns `-1`. -/
def afterWait (s : SmartEPoller ι) : WaitResult ι → Option (SmartEPoller ι)
  | .failed errno => if errno = EINTR then some s else none
  | .ready [] => some s
  | .ready (e :: evlist) => some ((e :: evlist).foldl takeEvent { s with readyList := [] })

/-- A call on an item made by a callback. -/
def applyCall (s : SmartEPoller ι) (call : ι × ItemOp) : SmartEPoller ι :=
  s.updateEvents call.1 (call.2.events (s.items call.1).events)

variable (react : SmartEPoller ι → ι → List (ι × ItemOp))

/-- The dispatch loop: the calls of `handle_events` and the epoller afterwards. -/
def dispatch (s : SmartEPoller ι) : List ι → List (Report ι) × SmartEPoller ι
  | [] => ([], s)
  | i :: ready =>
    let r := dispatch ((react s i).foldl applyCall s) ready
    ((i, (s.items i).revents) :: r.1, r.2)

/-- The calls of `handle_events` in each iteration, until the loop returns. -/
def eventloop (s : SmartEPoller ι) : List (WaitResult ι) → List (List (Report ι))
  | [] => []
  | r :: rs =>
    match afterWait s r with
    | none => []
    | some s =>
      let d := dispatch react s s.readyList
      d.1 :: eventloop d.2 rs

end

/-- The reports `epoll_wait` delivers until it fails. -/
def delivered : List (WaitResult ι) → List (Report ι)
  | [] => []
  | .failed errno :: rs => if errno = EINTR then delivered rs else []
  | .ready evlist :: rs => reports evlist ++ delivered rs

/-- The wait came back without an event. -/
def WaitResult.Idle : WaitResult ι → Prop
  | .failed _ => True
  | .ready evlist => evlist = []

/-- No item is reported twice with different masks. -/
def Consistent (evlist : List (EpollEvent ι)) : Prop :=
  ∀ p ∈ reports evlist, ∀ q ∈ reports evlist, p.1 = q.1 → p.2 = q.2

/-- Batches are consistent, and once a batch has reported an item no wait comes back
empty-handed; `last` are the items of the batch before. -/
def Clean : List ι → List (WaitResult ι) → Prop
  | _, [] => True
  | last, .failed errno :: rs => errno = EINTR → last = [] ∧ Clean last rs
  | last, .ready [] :: rs => last = [] ∧ Clean last rs
  | _, .ready (e :: evlist) :: rs =>
    Consistent (e :: evlist) ∧ Clean ((reports (e :: evlist)).map Prod.fst) rs

/-! ## One iteration -/

variable [DecidableEq ι] {s : SmartEPoller ι}

theorem takeEvent_some (s : SmartEPoller ι) {e : EpollEvent ι} {i : ι} (h : e.ptr = some i) :
    (takeEvent s e).readyList = s.readyList ++ [i] ∧ ((takeEvent s e).items i).revents = e.events ∧
      ∀ j, j ≠ i → ((takeEvent s e).items j).revents = (s.items j).revents := by
  unfold takeEvent
  rw [h]
  refine ⟨rfl, ?_, fun j hj => ?_⟩
  · simp [SmartEPoller.setItem]
  · simp [SmartEPoller.setItem, Function.update_of_ne hj]

theorem takeEvent_none (s : SmartEPoller ι) {e : EpollEvent ι} (h : e.ptr = none) : takeEvent s e = s := by
  unfold takeEvent; rw [h]

/-- After the loop over `evlist_` the ready list holds the reported items in order, and each of
them has a mask it was reported with. -/
theorem foldl_takeEvent (evlist : List (EpollEvent ι)) (s : SmartEPoller ι) :
    (evlist.foldl takeEvent s).readyList = s.readyList ++ (reports evlist).map Prod.fst ∧
      ∀ i, (i, ((evlist.foldl takeEvent s).items i).revents) ∈ reports evlist ∨
        ((evlist.foldl takeEvent s).items i).revents = (s.items i).revents ∧
          i ∉ (reports evlist).map Prod.fst := by
  induction evlist generalizing s with
  | nil => exact ⟨(List.append_nil _).symm, fun i => Or.inr ⟨rfl, by simp [reports]⟩⟩
  | cons e evlist ih =>
    obtain ⟨hready, hrev⟩ := ih (takeEvent s e)
    cases hp : e.ptr with
    | none =>
      have hrep : reports (e :: evlist) = reports evlist := by
        simp [reports, EpollEvent.report, hp]
      rw [takeEvent_none s hp] at hready hrev
      rw [List.foldl_cons, takeEvent_none s hp, hrep]
      exact ⟨hready, hrev⟩
    | some i =>
      obtain ⟨hr, hi, hother⟩ := takeEvent_some s hp
      have hrep : reports (e :: evlist) = (i, e.events) :: reports evlist := by
        simp [reports, EpollEvent.report, hp]
      rw [List.foldl_cons, hrep]
      refine ⟨by rw [hready, hr]; simp, fun j => ?_⟩
      rcases hrev j with hmem | ⟨hsame, hnot⟩
      · exact Or.inl (List.mem_cons_of_mem _ hmem)
      · by_cases e' : j = i
        · subst e'
          exact Or.inl (by rw [hsame, hi]; exact List.mem_cons_self)
        · refine Or.inr ⟨hsame.trans (hother j e'), ?_⟩
          rw [List.map_cons, List.mem_cons]
          exact fun h => h.elim e' hnot

omit [DecidableEq ι] in
theorem consistent_iff {evlist : List (EpollEvent ι)} {rev : ι → Events}
    (h : ∀ i, (i, rev i) ∈ reports evlist ∨ i ∉ (reports evlist).map Prod.fst) :
    ((reports evlist).map Prod.fst).map (fun i => (i, rev i)) = reports evlist ↔ Consistent evlist := by
  rw [List.map_map]
  constructor
  · intro hmap p hp q hq hpq
    have hfix : ∀ p ∈ reports evlist, (p.1, rev p.1) = p := by
      have := hmap.trans (List.map_id (reports evlist)).symm
      exact List.map_inj_left.1 this
    rw [← congrArg Prod.snd (hfix p hp), ← congrArg Prod.snd (hfix q hq), hpq]
  · intro hcons
    refine (List.map_congr_left fun p hp => ?_).trans (List.map_id _)
    rcases h p.1 with hmem | hnot
    · exact Prod.ext rfl (hcons _ hmem p hp rfl)
    · exact absurd (List.mem_map_of_mem hp) hnot

section

variable (react : SmartEPoller ι → ι → List (ι × ItemOp))

theorem foldl_applyCall (calls : List (ι × ItemOp)) (s : SmartEPoller ι) :
    (∀ j, ((calls.foldl applyCall s).items j).revents = (s.items j).revents) ∧
      (calls.foldl applyCall s).readyList = s.readyList := by
  induction calls generalizing s with
  | nil => exact ⟨fun _ => rfl, rfl⟩
  | cons call calls ih =>
    obtain ⟨hrev, hready⟩ := ih (applyCall s call)
    obtain ⟨hrev', hready'⟩ := SmartEPoller.updateEvents_revents s call.1
      (call.2.events (s.items call.1).events)
    exact ⟨fun j => (hrev j).trans (hrev' j), hready.trans hready'⟩

/-- The dispatch loop calls `handle_events` once for each ready item, with the `revents_` set
before, whatever the callbacks do. -/
theorem dispatch_eq (ready : List ι) (s : SmartEPoller ι) :
    (dispatch react s ready).1 = ready.map (fun i => (i, (s.items i).revents)) ∧
      (dispatch react s ready).2.readyList = s.readyList := by
  induction ready generalizing s with
  | nil => exact ⟨rfl, rfl⟩
  | cons i ready ih =>
    obtain ⟨hcalls, hready⟩ := ih ((react s i).foldl applyCall s)
    obtain ⟨hrev, hready'⟩ := foldl_applyCall (react s i) s
    refine ⟨?_, hready.trans hready'⟩
    rw [dispatch, List.map_cons, hcalls]
    simp only [hrev]

/-- An iteration with a batch. -/
theorem dispatch_batch (s : SmartEPoller ι) (e : EpollEvent ι) (evlist : List (EpollEvent ι)) :
    ∃ s', afterWait s (.ready (e :: evlist)) = some s' ∧
      s'.readyList = (reports (e :: evlist)).map Prod.fst ∧
      (dispatch react s' s'.readyList).1.length = (reports (e :: evlist)).length ∧
      ((dispatch react s' s'.readyList).1 = reports (e :: evlist) ↔ Consistent (e :: evlist)) := by
  obtain ⟨hready, hrev⟩ := foldl_takeEvent (e :: evlist) { s with readyList := [] }
  rw [List.nil_append] at hready
  refine ⟨_, rfl, hready, ?_, ?_⟩
  · rw [(dispatch_eq react _ _).1, List.length_map, hready, List.length_map]
  · rw [(dispatch_eq react _ _).1, hready]
    exact consistent_iff fun i => (hrev i).imp_right And.right

/-! ## The whole loop -/

/-- Never fewer calls than reports. -/
theorem length_delivered_le (rs : List (WaitResult ι)) (s : SmartEPoller ι) :
    (delivered rs).length ≤ (eventloop react s rs).flatten.length := by
  induction rs generalizing s with
  | nil => exact Nat.le_refl _
  | cons r rs ih =>
    match r with
    | .failed errno =>
      by_cases he : errno = EINTR
      · have := ih (dispatch react s s.readyList).2
        simp only [delivered, eventloop, afterWait, if_pos he, List.flatten_cons, List.length_append]
        omega
      · simp [delivered, eventloop, afterWait, if_neg he]
    | .ready [] =>
      have := ih (dispatch react s s.readyList).2
      simp only [delivered, reports, eventloop, afterWait, List.flatten_cons, List.length_append,
        List.filterMap_nil, List.nil_append]
      omega
    | .ready (e :: evlist) =>
      obtain ⟨s', hs', _, hlen, _⟩ := dispatch_batch react s e evlist
      have := ih (dispatch react s' s'.readyList).2
      simp only [delivered, eventloop, hs', List.flatten_cons, List.length_append, hlen]
      omega

/-- Every report is dispatched once and in order, and idle iterations dispatch nothing. -/
structure ExactlyOnce (calls : List (List (Report ι))) (rs : List (WaitResult ι)) : Prop where
  dispatched : calls.flatten = delivered rs
  idle : ∀ (k : Nat) (r : WaitResult ι) (c : List (Report ι)), rs[k]? = some r → r.Idle → calls[k]? = some c → c = []

/-- An idle iteration dispatches the ready list again. -/
theorem exactlyOnce_idle {r : WaitResult ι} {rs : List (WaitResult ι)} (hidle : r.Idle)
    (hs : afterWait s r = some s) (hdel : delivered (r :: rs) = delivered rs) :
    ExactlyOnce (eventloop react s (r :: rs)) (r :: rs) ↔
      s.readyList = [] ∧ ExactlyOnce (eventloop react (dispatch react s s.readyList).2 rs) rs := by
  have hloop : eventloop react s (r :: rs) =
      (dispatch react s s.readyList).1 :: eventloop react (dispatch react s s.readyList).2 rs := by
    simp [eventloop, hs]
  rw [hloop]
  constructor
  · rintro ⟨hcalls, hidle'⟩
    have hnil := hidle' 0 r _ rfl hidle rfl
    rw [List.flatten_cons, hdel, hnil, List.nil_append] at hcalls
    rw [(dispatch_eq react s.readyList s).1, List.map_eq_nil_iff] at hnil
    exact ⟨hnil, hcalls, fun k => hidle' (k + 1)⟩
  · rintro ⟨hready, hcalls, hidle'⟩
    have hnil : (dispatch react s s.readyList).1 = [] := by
      rw [(dispatch_eq react s.readyList s).1, hready, List.map_nil]
    refine ⟨by rw [List.flatten_cons, hnil, List.nil_append, hdel, hcalls], fun k r' c hr hi hc => ?_⟩
    cases k with
    | zero => cases hc; exact hnil
    | succ k => exact hidle' k r' c hr hi hc

/-- **The loop dispatches every report exactly once iff the waits are clean.** -/
theorem eventloop_exactlyOnce (rs : List (WaitResult ι)) (s : SmartEPoller ι) :
    ExactlyOnce (eventloop react s rs) rs ↔ Clean s.readyList rs := by
  induction rs generalizing s with
  | nil => exact ⟨fun _ => trivial, fun _ => ⟨rfl, fun k r c hr => by simp at hr⟩⟩
  | cons r rs ih =>
    have hkeep := (dispatch_eq react s.readyList s).2
    match r with
    | .failed errno =>
      by_cases he : errno = EINTR
      · rw [exactlyOnce_idle react (r := .failed errno) trivial (if_pos he) (if_pos he), ih, hkeep]
        exact ⟨fun h _ => h, fun h => h he⟩
      · refine ⟨fun _ h => absurd h he, fun _ => ⟨?_, fun k r c _ _ hc => ?_⟩⟩
        · simp [eventloop, afterWait, delivered, if_neg he]
        · simp [eventloop, afterWait, if_neg he] at hc
    | .ready [] =>
      rw [exactlyOnce_idle react (r := .ready []) rfl rfl rfl, ih, hkeep]
      rfl
    | .ready (e :: evlist) =>
      obtain ⟨s', hs', hready, hlen, hcons⟩ := dispatch_batch react s e evlist
      have hloop : eventloop react s (.ready (e :: evlist) :: rs) = (dispatch react s' s'.readyList).1 ::
          eventloop react (dispatch react s' s'.readyList).2 rs := by simp only [eventloop, hs']
      have hnext : ExactlyOnce (eventloop react (dispatch react s' s'.readyList).2 rs) rs ↔
          Clean s'.readyList rs := by
        rw [ih, (dispatch_eq react s'.readyList s').2]
      rw [hloop, Clean, ← hcons, ← hready, ← hnext]
      constructor
      · rintro ⟨hcalls, hidle⟩
        rw [List.flatten_cons, delivered] at hcalls
        obtain ⟨hnow, hlater⟩ := List.append_inj hcalls hlen
        exact ⟨hnow, hlater, fun k => hidle (k + 1)⟩
      · rintro ⟨hnow, hlater, hidle⟩
        refine ⟨by rw [List.flatten_cons, delivered, hnow, hlater], fun k r' c hr hi hc => ?_⟩
        cases k with
        | zero => cases hr; cases hi
        | succ k => exact hidle k r' c hr hi hc

end

/-- **Started with an empty ready list, the loop dispatches every report exactly once, and nothing
in an idle iteration, iff no wait comes back empty-handed once a batch has reported an item and no
batch reports one item with two masks.** -/
theorem eventloop_exactlyOnce_iff (react : SmartEPoller ι → ι → List (ι × ItemOp)) (items : ι → EPollItem)
    (interest : Int → Option (EpollEntry ι)) (rs : List (WaitResult ι)) :
    ExactlyOnce (eventloop react ⟨items, interest, []⟩ rs) rs ↔ Clean [] rs :=
  eventloop_exactlyOnce react rs ⟨items, interest, []⟩

end

/-- **A batch of one event, then an interrupted wait**: the event is dispatched twice. -/
theorem interrupted_wait_repeats :
    ¬ ExactlyOnce (eventloop (fun _ _ => []) (SmartEPoller.fresh fun _ : Unit => 5)
        [.ready [⟨EPOLLIN, some ()⟩], .failed EINTR])
      [.ready [⟨EPOLLIN, some ()⟩], .failed EINTR] := by
  rintro ⟨hcalls, _⟩
  exact absurd hcalls (by decide +kernel)

end SmartRoutine
