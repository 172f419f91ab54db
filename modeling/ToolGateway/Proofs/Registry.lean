import Mathlib.Data.List.Basic
import ToolGateway.Registry

/-!
# Reloads that overlap

Any number of callers ask a registry to read its description anew, and others look at the one that
it has. A call waits for the lock, reads the description, and makes what is stored out of it; between
these steps anything else can happen. Only the call that has the lock reads or stores (`Serial`), so
the calls have their turns one after the other, whatever the order of the steps is. A turn that does
not succeed leaves the description that it found, and a turn that succeeds leaves what became of the
text that it read (`Turn.Ends`). So the stored description is that of the last turn that replaced it,
and the texts were read in the order of the turns (`Service.turns_in_order`). A call that nobody
disturbs does what `reloadIfUpdated` says (`Service.run_alone`).
-/

namespace ToolGateway.Registry

/-! ### Calls -/

/-- What a caller asks for: to read the description anew, or only when its version is not known. -/
inductive Inquiry where
  | reload
  | update (known : Option String)

/-- Whether a description that was read is not wanted, since its version is known. -/
def Inquiry.gates : Inquiry → Document → Bool
  | .reload, _ => false
  | .update known, raw => known.isSome && raw.version == known

/-- Where a call stands: before it has the lock, with the lock, or after its end, when it tells
whether the description was replaced. -/
inductive Stage where
  | queued
  | reading
  | finishing (raw : Document)
  | over (answer : Except Error Bool)

/-- Whether a call is between getting and giving back the lock. -/
def Stage.AtWork : Stage → Prop
  | .reading | .finishing _ => True
  | .queued | .over _ => False

structure Call where
  inquiry : Inquiry
  stage : Stage

/-- What a call did since it got the lock: the description that it found, the worlds in which it
read and finished, and at the end its answer and the description that it left. -/
structure Turn where
  call : Nat
  inquiry : Inquiry
  found : Document
  seen : List World
  ending : Option (Except Error Bool × Document)

namespace Turn

/-- The description that a turn put in place. -/
def output? (u : Turn) : Option Document :=
  match u.ending with
  | some (.ok true, left) => some left
  | _ => none

/-- How a turn ends. It cannot read, it reads a known version, it cannot finish what it read, or it
stores what became of it. -/
inductive Ends (r : Registry) (inquiry : Inquiry) (found : Document) :
    List World → Except Error Bool → Document → Prop
  | unread {w : World} {e : Error} (read : r.raw w = .error e) :
      Ends r inquiry found [w] (.error e) found
  | gated {w : World} {raw : Document} (read : r.raw w = .ok raw)
      (known : inquiry.gates raw = true) : Ends r inquiry found [w] (.ok false) found
  | unfinished {w w' : World} {raw : Document} {e : Error} (read : r.raw w = .ok raw)
      (new : inquiry.gates raw = false) (finished : finish w' r.root r.filters raw = .error e) :
      Ends r inquiry found [w, w'] (.error e) found
  | replaced {w w' : World} {raw document : Document} (read : r.raw w = .ok raw)
      (new : inquiry.gates raw = false)
      (finished : finish w' r.root r.filters raw = .ok document) :
      Ends r inquiry found [w, w'] (.ok true) document

/-- The turn sees a world. -/
def see (w : World) (u : Turn) : Turn := { u with seen := u.seen ++ [w] }

/-- The turn ends. -/
def close (answer : Except Error Bool) (left : Document) (u : Turn) : Turn :=
  { u with ending := some (answer, left) }

/-- Changes the turn of a call. -/
def change (i : Nat) (f : Turn → Turn) (turns : List Turn) : List Turn :=
  turns.map fun u => if u.call = i then f u else u

theorem change_concat {turns : List Turn} {u : Turn} {i : Nat} (f : Turn → Turn)
    (mine : u.call = i) (others : ∀ v ∈ turns, v.call ≠ i) :
    change i f (turns ++ [u]) = turns ++ [f u] := by
  have kept : turns.map (fun v => if v.call = i then f v else v) = turns :=
    (List.map_congr_left fun v hv => if_neg (others v hv)).trans (List.map_id' turns)
  simp [change, kept, mine]

/-- The description that some turns leave, when the first of them found `found`. -/
def latest (found : Document) (turns : List Turn) : Document :=
  (turns.filterMap output?).getLast?.getD found

theorem latest_concat (found : Document) (turns : List Turn) (u : Turn) :
    latest found (turns ++ [u]) = u.output?.getD (latest found turns) := by
  unfold latest
  rw [List.filterMap_append, List.getLast?_append]
  cases h : u.output? <;> simp [h]

end Turn

/-! ### Runs of steps -/

/-- A registry in use: the lock, all calls in the order in which they were made, their turns in the
order in which they got the lock, the calls that have read the description, in that order, and the
descriptions that were looked at. -/
structure Service where
  registry : Registry
  locked : Bool
  calls : List Call
  turns : List Turn
  reads : List Nat
  looked : List Document

/-- What can happen next: a call is made, gets the lock, reads the description or finishes it, or
somebody looks at the stored description. -/
inductive Move where
  | call (inquiry : Inquiry)
  | lock (i : Nat)
  | read (i : Nat) (w : World)
  | finish (i : Nat) (w : World)
  | look

namespace Service

def idle (registry : Registry) : Service := ⟨registry, false, [], [], [], []⟩

/-- The call gives the lock back and ends. -/
def close (s : Service) (i : Nat) (inquiry : Inquiry) (answer : Except Error Bool) : Service :=
  { s with
    locked := false
    calls := s.calls.set i ⟨inquiry, .over answer⟩
    turns := Turn.change i (Turn.close answer s.registry.document) s.turns }

/-- The call that has the lock reads the description. -/
def read (s : Service) (i : Nat) (inquiry : Inquiry) (w : World) : Service :=
  let s := { s with turns := Turn.change i (Turn.see w) s.turns, reads := s.reads ++ [i] }
  match s.registry.raw w with
  | .error e => s.close i inquiry (.error e)
  | .ok raw =>
    if inquiry.gates raw then s.close i inquiry (.ok false)
    else { s with calls := s.calls.set i ⟨inquiry, .finishing raw⟩ }

/-- The call that has the lock stores what becomes of the description that it has read. -/
def finish (s : Service) (i : Nat) (inquiry : Inquiry) (raw : Document) (w : World) : Service :=
  let (done, registry) := s.registry.store (Registry.finish w s.registry.root s.registry.filters raw)
  let s := { s with registry, turns := Turn.change i (Turn.see w) s.turns }
  s.close i inquiry (done.map fun _ => true)

/-- Makes a move. A move that the call does not wait for is lost, as is a lock that is taken. -/
def move (s : Service) : Move → Service
  | .call inquiry => { s with calls := s.calls ++ [⟨inquiry, .queued⟩] }
  | .lock i =>
    match s.calls[i]? with
    | some ⟨inquiry, .queued⟩ =>
      if s.locked then s
      else
        { s with
          locked := true
          calls := s.calls.set i ⟨inquiry, .reading⟩
          turns := s.turns ++ [⟨i, inquiry, s.registry.document, [], none⟩] }
    | _ => s
  | .read i w =>
    match s.calls[i]? with
    | some ⟨inquiry, .reading⟩ => s.read i inquiry w
    | _ => s
  | .finish i w =>
    match s.calls[i]? with
    | some ⟨inquiry, .finishing raw⟩ => s.finish i inquiry raw w
    | _ => s
  | .look => { s with looked := s.looked ++ [s.registry.document] }

def run (s : Service) (moves : List Move) : Service := moves.foldl move s

end Service

/-! ### One turn after the other -/

variable {r : Registry} {s : Service} {past : List Turn} {i : Nat} {inquiry : Inquiry}
  {answer : Except Error Bool}

/-- A turn that is over, and so is its call. -/
def Turn.Closed (r : Registry) (calls : List Call) (u : Turn) : Prop :=
  ∃ answer left, u.ending = some (answer, left) ∧
    Turn.Ends r u.inquiry u.found u.seen answer left ∧
    calls[u.call]? = some ⟨u.inquiry, .over answer⟩

/-- What the turns that are over have made of the registry. -/
structure Served (r : Registry) (s : Service) (past : List Turn) : Prop where
  registry : s.registry = { r with document := Turn.latest r.document past }
  closed : ∀ u ∈ past, u.Closed r s.calls
  found : ∀ k u, past[k]? = some u → u.found = Turn.latest r.document (past.take k)
  distinct : (past.map (·.call)).Nodup
  turn : ∀ i inquiry answer, s.calls[i]? = some ⟨inquiry, .over answer⟩ → ∃ u ∈ past, u.call = i
  looked : ∀ d ∈ s.looked, ∃ before, before <+: past ∧ d = Turn.latest r.document before

/-- The lock is with the call that is at work. -/
structure Held (s : Service) (holder : Option Nat) : Prop where
  locked : s.locked = holder.isSome
  alone : ∀ i inquiry stage, s.calls[i]? = some ⟨inquiry, stage⟩ → stage.AtWork → holder = some i

/-- Whether a turn is under way after those that are over, and how far it is. -/
inductive Phase (r : Registry) (s : Service) (past : List Turn) : Prop
  | free (held : Held s none) (turns : s.turns = past) (reads : s.reads = past.map (·.call))
  | reading {i : Nat} {inquiry : Inquiry} (held : Held s (some i))
      (turns : s.turns = past ++ [⟨i, inquiry, s.registry.document, [], none⟩])
      (reads : s.reads = past.map (·.call)) (stage : s.calls[i]? = some ⟨inquiry, .reading⟩)
  | finishing {i : Nat} {inquiry : Inquiry} {w : World} {raw : Document} (held : Held s (some i))
      (turns : s.turns = past ++ [⟨i, inquiry, s.registry.document, [w], none⟩])
      (reads : s.reads = past.map (·.call) ++ [i])
      (stage : s.calls[i]? = some ⟨inquiry, .finishing raw⟩) (read : r.raw w = .ok raw)
      (new : inquiry.gates raw = false)

/-- The calls have had their turns one after the other. -/
def Serial (r : Registry) (s : Service) : Prop :=
  ∃ past, Served r s past ∧ Phase r s past

theorem cases_of_getElem?_set {calls : List Call} {c c' : Call} {j : Nat}
    (h : (calls.set i c)[j]? = some c') : i = j ∧ c = c' ∨ i ≠ j ∧ calls[j]? = some c' := by
  by_cases same : i = j
  · subst same
    refine Or.inl ⟨rfl, ?_⟩
    rw [List.getElem?_set_self' ] at h
    cases there : calls[i]? with
    | none =>
      rw [there] at h
      cases h
    | some _ =>
      rw [there] at h
      exact Option.some.inj h
  · rw [List.getElem?_set_ne same] at h
    exact Or.inr ⟨same, h⟩

theorem Served.raw_eq (served : Served r s past) (w : World) : s.registry.raw w = r.raw w := by
  rw [served.registry]
  rfl

/-- The turns that are over are those of other calls than one that is not over. -/
theorem Served.ne_of_under (served : Served r s past) {stage : Stage}
    (there : s.calls[i]? = some ⟨inquiry, stage⟩) (under : ∀ answer, stage ≠ .over answer) :
    ∀ u ∈ past, u.call ≠ i := by
  rintro u hu rfl
  obtain ⟨answer, _, -, -, done⟩ := served.closed u hu
  rw [there] at done
  cases done
  exact under answer rfl

/-- As long as the same calls are over and the description stays, all is as before. -/
theorem Served.keep (served : Served r s past) {s' : Service}
    (registry : s'.registry = s.registry) (looked : s'.looked = s.looked)
    (same : ∀ (i : Nat) (inquiry : Inquiry) (answer : Except Error Bool),
      s'.calls[i]? = some ⟨inquiry, .over answer⟩ ↔
      s.calls[i]? = some ⟨inquiry, .over answer⟩) : Served r s' past where
  registry := registry.trans served.registry
  closed u hu := by
    obtain ⟨answer, left, ending, ends, done⟩ := served.closed u hu
    exact ⟨answer, left, ending, ends, (same _ _ _).mpr done⟩
  found := served.found
  distinct := served.distinct
  turn i inquiry answer done := served.turn i inquiry answer ((same _ _ _).mp done)
  looked := by
    rw [looked]
    exact served.looked

/-- A call that goes on does not change which calls are over. -/
theorem getElem?_set_over {calls : List Call} {stage next : Stage}
    (there : calls[i]? = some ⟨inquiry, stage⟩) (under : ∀ answer, stage ≠ .over answer)
    (goes : ∀ answer, next ≠ .over answer) (j : Nat) (asked : Inquiry)
    (answer : Except Error Bool) :
    (calls.set i ⟨inquiry, next⟩)[j]? = some ⟨asked, .over answer⟩ ↔
      calls[j]? = some ⟨asked, .over answer⟩ := by
  by_cases same : i = j
  · subst same
    rw [List.getElem?_set_self (List.getElem?_eq_some_iff.mp there).1, there]
    constructor
    · intro h
      cases h
      exact absurd rfl (goes answer)
    · intro h
      cases h
      exact absurd rfl (under answer)
  · rw [List.getElem?_set_ne same]

/-- The call that has the lock, or gets it, is the one at work. -/
theorem Held.work {holder : Option Nat} (held : Held s holder) {s' : Service} {next : Stage}
    (calls : s'.calls = s.calls.set i ⟨inquiry, next⟩) (locked : s'.locked = true)
    (free : holder = none ∨ holder = some i) : Held s' (some i) where
  locked := locked
  alone j asked stage there work := by
    rw [calls] at there
    rcases cases_of_getElem?_set there with ⟨rfl, -⟩ | ⟨-, there⟩
    · rfl
    · have holds := held.alone j asked stage there work
      rcases free with rfl | rfl
      · cases holds
      · exact holds

/-- The call that has the lock gives it back. -/
theorem Held.release (held : Held s (some i)) {s' : Service}
    (calls : s'.calls = s.calls.set i ⟨inquiry, .over answer⟩) (locked : s'.locked = false) :
    Held s' none where
  locked := locked
  alone j asked stage there work := by
    rw [calls] at there
    rcases cases_of_getElem?_set there with ⟨-, same⟩ | ⟨other, there⟩
    · cases same
      cases work
    · exact absurd (Option.some.inj (held.alone j asked stage there work)) other

theorem Served.document_eq (served : Served r s past) :
    s.registry.document = Turn.latest r.document past := by
  rw [served.registry]

/-- Each turn finds what the turns before it have left. -/
theorem Served.found_concat (served : Served r s past) {u : Turn}
    (found : u.found = s.registry.document) (k : Nat) (v : Turn)
    (there : (past ++ [u])[k]? = some v) :
    v.found = Turn.latest r.document ((past ++ [u]).take k) := by
  by_cases earlier : k < past.length
  · rw [List.getElem?_append_left earlier] at there
    rw [List.take_append_of_le_length (Nat.le_of_lt earlier)]
    exact served.found k v there
  · obtain ⟨inside, same⟩ := List.getElem?_eq_some_iff.mp there
    have last : k = past.length := by
      rw [List.length_append, List.length_singleton] at inside
      omega
    subst last
    rw [List.getElem?_concat_length] at there
    cases there
    rw [List.take_left, found, served.document_eq]

/-- A turn ends: `t` is the service when the call has seen all that it sees, and is still at work. -/
theorem Serial.close (served : Served r s past) (held : Held s (some i)) {stage : Stage}
    (there : s.calls[i]? = some ⟨inquiry, stage⟩) (under : ∀ answer, stage ≠ .over answer)
    {seen : List World} {left : Document}
    (ends : Turn.Ends r inquiry s.registry.document seen answer left) {t : Service}
    (registry : t.registry = { r with document := left }) (calls : t.calls = s.calls)
    (turns : t.turns = past ++ [⟨i, inquiry, s.registry.document, seen, none⟩])
    (reads : t.reads = past.map (·.call) ++ [i]) (looked : t.looked = s.looked) :
    Serial r (t.close i inquiry answer) := by
  have others := served.ne_of_under there under
  have ended : (t.close i inquiry answer).turns =
      past ++ [⟨i, inquiry, s.registry.document, seen, some (answer, left)⟩] := by
    show Turn.change i (Turn.close answer t.registry.document) t.turns = _
    rw [turns, registry]
    exact Turn.change_concat _ rfl others
  have done : (t.close i inquiry answer).calls = s.calls.set i ⟨inquiry, .over answer⟩ := by
    rw [← calls]
    rfl
  refine ⟨_, ?_, .free (held.release done rfl) ended ?_⟩
  · constructor
    · refine registry.trans ?_
      rw [Turn.latest_concat]
      cases ends with
      | replaced _ _ _ => rfl
      | _ => rw [served.document_eq]; rfl
    · rw [done]
      intro u hu
      rcases List.mem_append.mp hu with hu | hu
      · obtain ⟨answer, left, ending, ends, closed⟩ := served.closed u hu
        refine ⟨answer, left, ending, ends, ?_⟩
        rw [List.getElem?_set_ne (others u hu).symm, closed]
      · cases List.mem_singleton.mp hu
        exact ⟨answer, left, rfl, ends,
          List.getElem?_set_self (List.getElem?_eq_some_iff.mp there).1⟩
    · exact served.found_concat rfl
    · rw [List.map_append, List.nodup_append]
      refine ⟨served.distinct, List.pairwise_singleton _ _, ?_⟩
      intro a ha b hb same
      obtain ⟨u, hu, rfl⟩ := List.mem_map.mp ha
      cases List.mem_singleton.mp hb
      exact others u hu same
    · rw [done]
      intro j asked answer' ended
      rcases cases_of_getElem?_set ended with ⟨rfl, -⟩ | ⟨-, ended⟩
      · exact ⟨_, List.mem_append_right _ List.mem_cons_self, rfl⟩
      · obtain ⟨u, hu, same⟩ := served.turn j asked answer' ended
        exact ⟨u, List.mem_append_left _ hu, same⟩
    · intro d hd
      obtain ⟨before, initial, same⟩ := served.looked d (looked ▸ hd)
      exact ⟨before, initial.trans (List.prefix_append _ _), same⟩
  · rw [List.map_append]
    exact reads

theorem Serial.read (served : Served r s past) (held : Held s (some i))
    (turns : s.turns = past ++ [⟨i, inquiry, s.registry.document, [], none⟩])
    (reads : s.reads = past.map (·.call)) (stage : s.calls[i]? = some ⟨inquiry, .reading⟩)
    (w : World) : Serial r (s.read i inquiry w) := by
  have under : ∀ answer, Stage.reading ≠ .over answer := by simp
  have seen : Turn.change i (Turn.see w) s.turns =
      past ++ [⟨i, inquiry, s.registry.document, [w], none⟩] := by
    rw [turns]
    exact Turn.change_concat _ rfl (served.ne_of_under stage under)
  have same : s.registry = { r with document := s.registry.document } := by rw [served.registry]
  have read' : s.reads ++ [i] = past.map (·.call) ++ [i] := by rw [reads]
  unfold Service.read
  dsimp only
  rw [served.raw_eq]
  cases read : r.raw w with
  | error e => exact Serial.close served held stage under (.unread read) same rfl seen read' rfl
  | ok raw =>
    dsimp only
    cases known : inquiry.gates raw with
    | true =>
      rw [if_pos rfl]
      exact Serial.close served held stage under (.gated read known) same rfl seen read' rfl
    | false =>
      rw [if_neg Bool.false_ne_true]
      refine ⟨past, served.keep rfl rfl (getElem?_set_over stage under (by simp)), ?_⟩
      exact .finishing (held.work rfl held.locked (Or.inr rfl)) seen read'
        (List.getElem?_set_self (List.getElem?_eq_some_iff.mp stage).1) read known

theorem Serial.finish (served : Served r s past) (held : Held s (some i)) {w : World}
    {raw : Document} (turns : s.turns = past ++ [⟨i, inquiry, s.registry.document, [w], none⟩])
    (reads : s.reads = past.map (·.call) ++ [i])
    (stage : s.calls[i]? = some ⟨inquiry, .finishing raw⟩) (read : r.raw w = .ok raw)
    (new : inquiry.gates raw = false) (w' : World) : Serial r (s.finish i inquiry raw w') := by
  have under : ∀ answer, Stage.finishing raw ≠ .over answer := by simp
  have seen : Turn.change i (Turn.see w') s.turns =
      past ++ [⟨i, inquiry, s.registry.document, [w, w'], none⟩] := by
    rw [turns]
    exact Turn.change_concat _ rfl (served.ne_of_under stage under)
  have root : s.registry.root = r.root := by rw [served.registry]
  have filters : s.registry.filters = r.filters := by rw [served.registry]
  unfold Service.finish
  rw [root, filters]
  cases finished : Registry.finish w' r.root r.filters raw with
  | error e =>
    have same : s.registry = { r with document := s.registry.document } := by rw [served.registry]
    exact Serial.close served held stage under (.unfinished read new finished) same rfl seen reads
      rfl
  | ok document =>
    have put : { s.registry with document } = { r with document } := by rw [served.registry]
    exact Serial.close served held stage under (.replaced read new finished) put rfl seen reads rfl

theorem cases_of_getElem?_concat {calls : List Call} {c c' : Call} {j : Nat}
    (h : (calls ++ [c])[j]? = some c') : calls[j]? = some c' ∨ c = c' := by
  rw [List.getElem?_append] at h
  split at h
  · exact Or.inl h
  · cases there : j - calls.length with
    | zero =>
      rw [there] at h
      exact Or.inr (Option.some.inj h)
    | succ _ =>
      rw [there] at h
      cases h

theorem getElem?_concat {calls : List Call} {c' : Call} {j : Nat} (h : calls[j]? = some c')
    (c : Call) : (calls ++ [c])[j]? = some c' :=
  (List.getElem?_append_left (List.getElem?_eq_some_iff.mp h).1).trans h

theorem Served.call (served : Served r s past) (inquiry : Inquiry) :
    Served r { s with calls := s.calls ++ [⟨inquiry, .queued⟩] } past := by
  refine served.keep rfl rfl fun i asked answer => ⟨?_, fun ended => getElem?_concat ended _⟩
  intro ended
  rcases cases_of_getElem?_concat ended with ended | new
  · exact ended
  · cases new

theorem Held.call {holder : Option Nat} (held : Held s holder) (inquiry : Inquiry) :
    Held { s with calls := s.calls ++ [⟨inquiry, .queued⟩] } holder where
  locked := held.locked
  alone i asked stage there work := by
    rcases cases_of_getElem?_concat there with there | new
    · exact held.alone i asked stage there work
    · cases new
      cases work

/-- Each move leaves the calls in their order. -/
theorem Serial.move (serial : Serial r s) (m : Move) : Serial r (s.move m) := by
  obtain ⟨past, served, phase⟩ := serial
  cases m with
  | call inquiry =>
    refine ⟨past, served.call inquiry, ?_⟩
    cases phase with
    | free held turns reads => exact .free (held.call inquiry) turns reads
    | reading held turns reads stage =>
      exact .reading (held.call inquiry) turns reads (getElem?_concat stage _)
    | finishing held turns reads stage read new =>
      exact .finishing (held.call inquiry) turns reads (getElem?_concat stage _)
        read new
  | lock i =>
    unfold Service.move
    dsimp only
    split
    · next inquiry queued =>
      cases phase with
      | free held turns reads =>
        have unlocked : s.locked = false := held.locked
        rw [unlocked, if_neg Bool.false_ne_true]
        refine ⟨past, served.keep rfl rfl (getElem?_set_over queued (by simp) (by simp)), ?_⟩
        exact .reading (held.work rfl rfl (Or.inl rfl)) (by rw [turns]) reads
          (List.getElem?_set_self (List.getElem?_eq_some_iff.mp queued).1)
      | reading held turns reads stage =>
        have locked : s.locked = true := held.locked
        rw [locked, if_pos rfl]
        exact ⟨past, served, .reading held turns reads stage⟩
      | finishing held turns reads stage read new =>
        have locked : s.locked = true := held.locked
        rw [locked, if_pos rfl]
        exact ⟨past, served, .finishing held turns reads stage read new⟩
    · exact ⟨past, served, phase⟩
  | read i w =>
    unfold Service.move
    dsimp only
    split
    · next inquiry there =>
      cases phase with
      | free held _ _ => cases held.alone i _ _ there trivial
      | reading held turns reads stage =>
        cases held.alone i _ _ there trivial
        cases stage.symm.trans there
        exact Serial.read served held turns reads stage w
      | finishing held _ _ stage _ _ =>
        cases held.alone i _ _ there trivial
        cases stage.symm.trans there
    · exact ⟨past, served, phase⟩
  | finish i w =>
    unfold Service.move
    dsimp only
    split
    · next inquiry raw there =>
      cases phase with
      | free held _ _ => cases held.alone i _ _ there trivial
      | reading held _ _ stage =>
        cases held.alone i _ _ there trivial
        cases stage.symm.trans there
      | finishing held turns reads stage read new =>
        cases held.alone i _ _ there trivial
        cases stage.symm.trans there
        exact Serial.finish served held turns reads stage read new w
    · exact ⟨past, served, phase⟩
  | look =>
    refine ⟨past, ⟨served.registry, served.closed, served.found, served.distinct, served.turn, ?_⟩, ?_⟩
    · intro d hd
      rcases List.mem_append.mp hd with hd | hd
      · exact served.looked d hd
      · cases List.mem_singleton.mp hd
        exact ⟨past, List.prefix_rfl, served.document_eq⟩
    · cases phase with
      | free held turns reads => exact .free ⟨held.locked, held.alone⟩ turns reads
      | reading held turns reads stage =>
        exact .reading ⟨held.locked, held.alone⟩ turns reads stage
      | finishing held turns reads stage read new =>
        exact .finishing ⟨held.locked, held.alone⟩ turns reads stage read new

theorem serial_idle (r : Registry) : Serial r (Service.idle r) := by
  refine ⟨[], ⟨rfl, ?_, ?_, List.nodup_nil, ?_, ?_⟩, .free ⟨rfl, ?_⟩ rfl rfl⟩
  · intro u hu
    cases hu
  · intro k u there
    cases there
  · intro i inquiry answer ended
    cases ended
  · intro d hd
    cases hd
  · intro i inquiry stage there
    cases there

theorem serial_run (r : Registry) (moves : List Move) : Serial r ((Service.idle r).run moves) := by
  have start := serial_idle r
  generalize Service.idle r = s at start
  induction moves generalizing s with
  | nil => exact start
  | cons m moves ih => exact ih _ (start.move m)

/-! ### What is stored -/

theorem Inquiry.gates_iff {raw : Document} :
    inquiry.gates raw = true ↔ ∃ v, inquiry = .update (some v) ∧ raw.version = some v := by
  cases inquiry with
  | reload => simp [gates]
  | update known => cases known <;> simp [gates]

/-- A turn leaves what it found unless it succeeds, and it tells that nothing is new exactly when it
has read the version that it was asked about. -/
theorem Turn.Ends.answers {found left : Document} {seen : List World}
    (ends : Turn.Ends r inquiry found seen answer left) :
    (answer ≠ .ok true → left = found) ∧
      (answer = .ok false ↔ ∃ w raw v, seen.head? = some w ∧ r.raw w = .ok raw ∧
        inquiry = .update (some v) ∧ raw.version = some v) := by
  have isNew {raw : Document} (new : inquiry.gates raw = false) (v : String)
      (asked : inquiry = .update (some v)) : raw.version ≠ some v := by
    intro same
    rw [Inquiry.gates_iff.mpr ⟨v, asked, same⟩] at new
    cases new
  cases ends with
  | unread read =>
    refine ⟨fun _ => rfl, fun h => (by cases h), ?_⟩
    rintro ⟨w, raw, v, ⟨⟩, ok, -⟩
    rw [read] at ok
    cases ok
  | @gated w raw read known =>
    obtain ⟨v, asked, same⟩ := Inquiry.gates_iff.mp known
    exact ⟨fun _ => rfl, fun _ => ⟨w, raw, v, rfl, read, asked, same⟩, fun _ => rfl⟩
  | unfinished read new finished =>
    refine ⟨fun _ => rfl, fun h => (by cases h), ?_⟩
    rintro ⟨w, raw, v, ⟨⟩, ok, asked, same⟩
    cases read.symm.trans ok
    exact absurd same (isNew new v asked)
  | replaced read new finished =>
    refine ⟨fun h => absurd rfl h, fun h => (by cases h), ?_⟩
    rintro ⟨w, raw, v, ⟨⟩, ok, asked, same⟩
    cases read.symm.trans ok
    exact absurd same (isNew new v asked)

namespace Service

/-- The description stays, and no call comes to tell that it was replaced. -/
def Stays (s s' : Service) : Prop :=
  s'.registry = s.registry ∧ ∀ (i : Nat) (inquiry : Inquiry),
    s'.calls[i]? = some ⟨inquiry, .over (.ok true)⟩ →
      s.calls[i]? = some ⟨inquiry, .over (.ok true)⟩

theorem Stays.refl (s : Service) : Stays s s := ⟨rfl, fun _ _ h => h⟩

theorem Stays.set {s' : Service} {stage : Stage} (registry : s'.registry = s.registry)
    (calls : s'.calls = s.calls.set i ⟨inquiry, stage⟩) (other : stage ≠ .over (.ok true)) :
    Stays s s' := by
  refine ⟨registry, ?_⟩
  intro j asked there
  rw [calls] at there
  rcases cases_of_getElem?_set there with ⟨-, same⟩ | ⟨-, there⟩
  · cases same
    exact absurd rfl other
  · exact there

/-- A call finishes what it has read and puts it in place of the description. -/
def Replaces (r : Registry) (s : Service) (m : Move) : Prop :=
  ∃ i inquiry raw w document, m = .finish i w ∧ s.calls[i]? = some ⟨inquiry, .finishing raw⟩ ∧
    Registry.finish w r.root r.filters raw = .ok document ∧
    (s.move m).registry = { r with document } ∧
    (s.move m).calls[i]? = some ⟨inquiry, .over (.ok true)⟩ ∧ s.reads.getLast? = some i

theorem stays_or_replaces (serial : Serial r s) (m : Move) :
    Stays s (s.move m) ∨ Replaces r s m := by
  cases m with
  | call inquiry =>
    refine Or.inl ⟨rfl, ?_⟩
    intro i asked there
    rcases cases_of_getElem?_concat there with there | new
    · exact there
    · cases new
  | lock i =>
    refine Or.inl ?_
    unfold move
    dsimp only
    split
    · split
      · exact .refl s
      · exact .set rfl rfl (by simp)
    · exact .refl s
  | read i w =>
    refine Or.inl ?_
    unfold move
    dsimp only
    split
    · unfold read
      dsimp only
      split
      · exact .set rfl rfl (by simp)
      · split
        · exact .set rfl rfl (by simp)
        · exact .set rfl rfl (by simp)
    · exact .refl s
  | finish i w =>
    unfold Replaces move
    dsimp only
    split
    · next inquiry raw there =>
      obtain ⟨past, served, phase⟩ := serial
      have root : s.registry.root = r.root := by rw [served.registry]
      have filters : s.registry.filters = r.filters := by rw [served.registry]
      unfold finish
      rw [root, filters]
      cases finished : Registry.finish w r.root r.filters raw with
      | error e => exact Or.inl (.set rfl rfl (by simp [Except.map]))
      | ok document =>
        refine Or.inr ⟨i, inquiry, raw, w, document, rfl, there, finished, ?_, ?_, ?_⟩
        · show { s.registry with document } = _
          rw [served.registry]
        · exact List.getElem?_set_self (List.getElem?_eq_some_iff.mp there).1
        · cases phase with
          | free held _ _ => cases held.alone i _ _ there trivial
          | reading held _ _ stage =>
            cases held.alone i _ _ there trivial
            cases stage.symm.trans there
          | finishing held _ reads _ _ _ =>
            cases held.alone i _ _ there trivial
            rw [reads, List.getLast?_concat]
    · exact Or.inl (.refl s)
  | look => exact Or.inl ⟨rfl, fun _ _ there => there⟩

end Service

/-- The turns are those that are over, and at most one more, which has not ended. -/
theorem Phase.turns (served : Served r s past) (phase : Phase r s past) :
    s.turns = past ∨ ∃ u, s.turns = past ++ [u] ∧ u.ending = none ∧
      u.found = s.registry.document ∧ ∀ v ∈ past, v.call ≠ u.call := by
  cases phase with
  | free held turns reads => exact Or.inl turns
  | reading held turns reads stage =>
    exact Or.inr ⟨_, turns, rfl, rfl, served.ne_of_under stage (by simp)⟩
  | finishing held turns reads stage read new =>
    exact Or.inr ⟨_, turns, rfl, rfl, served.ne_of_under stage (by simp)⟩

theorem Phase.reads_prefix (phase : Phase r s past) : s.reads <+: s.turns.map (·.call) := by
  cases phase with
  | free held turns reads =>
    have same : s.reads = s.turns.map (·.call) := by rw [turns, reads]
    exact same ▸ List.prefix_rfl
  | reading held turns reads stage =>
    rw [turns, reads, List.map_append]
    exact List.prefix_append _ _
  | finishing held turns reads stage read new =>
    rw [turns, reads, List.map_append]
    exact List.prefix_rfl

/-- The turns of a service, that under way included. -/
theorem Serial.turns (serial : Serial r s) :
    s.registry = { r with document := Turn.latest r.document s.turns } ∧
      (s.turns.map (·.call)).Nodup ∧
      (∀ k u, s.turns[k]? = some u → u.found = Turn.latest r.document (s.turns.take k)) ∧
      (∀ u ∈ s.turns, u.ending = none ∨ u.Closed r s.calls) ∧
      (∀ i inquiry answer, s.calls[i]? = some ⟨inquiry, .over answer⟩ →
        ∃ u ∈ s.turns, u.call = i ∧ u.Closed r s.calls) ∧
      ∀ d ∈ s.looked, ∃ before, before <+: s.turns ∧ d = Turn.latest r.document before := by
  obtain ⟨past, served, phase⟩ := serial
  rcases phase.turns served with turns | ⟨u, turns, under, found, others⟩
  · rw [turns]
    refine ⟨served.registry, served.distinct, served.found, ?_, ?_, served.looked⟩
    · intro u hu
      exact Or.inr (served.closed u hu)
    · intro i inquiry answer closed
      obtain ⟨u, hu, same⟩ := served.turn i inquiry answer closed
      exact ⟨u, hu, same, served.closed u hu⟩
  · have nothing : u.output? = none := by simp [Turn.output?, under]
    rw [turns]
    refine ⟨?_, ?_, served.found_concat found, ?_, ?_, ?_⟩
    · rw [Turn.latest_concat, nothing]
      exact served.registry
    · rw [List.map_append, List.nodup_append]
      refine ⟨served.distinct, List.pairwise_singleton _ _, ?_⟩
      intro a ha b hb same
      obtain ⟨v, hv, rfl⟩ := List.mem_map.mp ha
      cases List.mem_singleton.mp hb
      exact others v hv same
    · intro v hv
      rcases List.mem_append.mp hv with hv | hv
      · exact Or.inr (served.closed v hv)
      · cases List.mem_singleton.mp hv
        exact Or.inl under
    · intro i inquiry answer closed
      obtain ⟨v, hv, same⟩ := served.turn i inquiry answer closed
      exact ⟨v, List.mem_append_left _ hv, same, served.closed v hv⟩
    · intro d hd
      obtain ⟨before, initial, same⟩ := served.looked d hd
      exact ⟨before, initial.trans (List.prefix_append _ _), same⟩

/-- For calls that overlap in any order of steps, with any outcomes: the stored description is that
of the last turn that replaced it, and so is each one that was looked at, for the turns up to then.
The calls read in the order of their turns, and each has one turn at most, which finds what those
before it have left. A call is over when its turn has ended, with the same answer. The turn ended in
one of four ways (`Turn.Ends`): it leaves what it found unless it succeeds, and it says that nothing
is new exactly when it has read the version that it was asked about. The stored description is
replaced exactly when a call comes to tell so, with what became of the text that this call read, and
no other call has read since. -/
theorem Service.turns_in_order (r : Registry) (moves : List Move) :
    let s := (idle r).run moves
    s.registry = { r with document := Turn.latest r.document s.turns } ∧
    (∀ d ∈ s.looked, ∃ before, before <+: s.turns ∧ d = Turn.latest r.document before) ∧
    s.reads <+: s.turns.map (·.call) ∧
    (s.turns.map (·.call)).Nodup ∧
    (∀ k u, s.turns[k]? = some u → u.found = Turn.latest r.document (s.turns.take k)) ∧
    (∀ (i : Nat) (inquiry : Inquiry) (answer : Except Error Bool),
      s.calls[i]? = some ⟨inquiry, .over answer⟩ ↔
        ∃ u ∈ s.turns, u.call = i ∧ u.inquiry = inquiry ∧
          ∃ left, u.ending = some (answer, left)) ∧
    (∀ u ∈ s.turns, ∀ answer left, u.ending = some (answer, left) →
      Turn.Ends r u.inquiry u.found u.seen answer left ∧
      (answer ≠ .ok true → left = u.found) ∧
      (answer = .ok false ↔ ∃ w raw v, u.seen.head? = some w ∧ r.raw w = .ok raw ∧
        u.inquiry = .update (some v) ∧ raw.version = some v)) ∧
    ∀ m, Stays s (s.move m) ∨ Replaces r s m := by
  intro s
  have serial : Serial r s := serial_run r moves
  obtain ⟨stored, distinct, found, ended, turn, looked⟩ := serial.turns
  have reads : s.reads <+: s.turns.map (·.call) := by
    obtain ⟨past, -, phase⟩ := serial
    exact phase.reads_prefix
  refine ⟨stored, looked, reads, distinct, found, ?_, ?_, stays_or_replaces serial⟩
  · intro i inquiry answer
    constructor
    · intro done
      obtain ⟨u, hu, rfl, answer', left, ending, -, there⟩ := turn i inquiry answer done
      rw [done] at there
      cases there
      exact ⟨u, hu, rfl, rfl, left, ending⟩
    · rintro ⟨u, hu, rfl, rfl, left, ending⟩
      rcases ended u hu with under | ⟨answer', left', ending', -, there⟩
      · rw [ending] at under
        cases under
      · rw [ending] at ending'
        cases ending'
        exact there
  · intro u hu answer left ending
    rcases ended u hu with under | ⟨answer', left', ending', ends, -⟩
    · rw [ending] at under
      cases under
    · rw [ending] at ending'
      cases ending'
      exact ⟨ends, ends.answers⟩

/-! ### A call that nobody disturbs -/

namespace Inquiry

/-- What is asked for, all at once. -/
def answered (w : World) (r : Registry) : Inquiry → Except Error Bool × Registry
  | .reload => ((r.reload w).1.map fun _ => true, (r.reload w).2)
  | .update known => r.reloadIfUpdated w known

variable {w : World} {raw : Document}

theorem answered_of_unread {e : Error} (read : r.raw w = .error e) :
    inquiry.answered w r = (.error e, r) := by
  cases inquiry with
  | reload =>
    unfold answered Registry.reload
    rw [read]
    rfl
  | update known =>
    unfold answered reloadIfUpdated
    rw [read]

theorem answered_of_gates (read : r.raw w = .ok raw) (known : inquiry.gates raw = true) :
    inquiry.answered w r = (.ok false, r) := by
  cases inquiry with
  | reload => cases known
  | update v =>
    unfold answered reloadIfUpdated
    rw [read]
    exact if_pos known

theorem answered_of_new (read : r.raw w = .ok raw) (new : inquiry.gates raw = false) :
    inquiry.answered w r =
      ((r.store (finish w r.root r.filters raw)).1.map fun _ => true,
        (r.store (finish w r.root r.filters raw)).2) := by
  cases inquiry with
  | reload =>
    unfold answered Registry.reload
    rw [read]
    rfl
  | update v =>
    unfold answered reloadIfUpdated
    rw [read]
    exact if_neg (Bool.eq_false_iff.mp new)

end Inquiry

namespace Service

theorem move_lock (there : s.calls[i]? = some ⟨inquiry, .queued⟩) (free : s.locked = false) :
    s.move (.lock i) =
      { s with
        locked := true
        calls := s.calls.set i ⟨inquiry, .reading⟩
        turns := s.turns ++ [⟨i, inquiry, s.registry.document, [], none⟩] } := by
  simp only [move, there, free, Bool.false_eq_true, if_false]

theorem move_read (there : s.calls[i]? = some ⟨inquiry, .reading⟩) (w : World) :
    s.move (.read i w) = s.read i inquiry w := by
  simp only [move, there]

theorem move_finish {raw : Document} (there : s.calls[i]? = some ⟨inquiry, .finishing raw⟩)
    (w : World) : s.move (.finish i w) = s.finish i inquiry raw w := by
  simp only [move, there]

/-- A call that is over does not finish once more. -/
theorem move_finish_of_over (there : s.calls[i]? = some ⟨inquiry, .over answer⟩) (w : World) :
    s.move (.finish i w) = s := by
  simp only [move, there]

theorem getElem?_close (inside : i < s.calls.length) :
    (s.close i inquiry answer).calls[i]? = some ⟨inquiry, .over answer⟩ :=
  List.getElem?_set_self inside

theorem getElem?_finish (inside : i < s.calls.length) (raw : Document) (w : World) :
    (s.finish i inquiry raw w).calls[i]? = some ⟨inquiry, .over
      ((s.registry.store (Registry.finish w s.registry.root s.registry.filters raw)).1.map
        fun _ => true)⟩ :=
  List.getElem?_set_self inside

/-- A call that gets the lock, reads and finishes with nothing in between does what the registry
does all at once. -/
theorem run_alone (there : s.calls[i]? = some ⟨inquiry, .queued⟩) (free : s.locked = false)
    (w : World) :
    (s.run [.lock i, .read i w, .finish i w]).registry = (inquiry.answered w s.registry).2 ∧
      (s.run [.lock i, .read i w, .finish i w]).calls[i]? =
        some ⟨inquiry, .over (inquiry.answered w s.registry).1⟩ := by
  have inside : i < s.calls.length := (List.getElem?_eq_some_iff.mp there).1
  show (((s.move (.lock i)).move (.read i w)).move (.finish i w)).registry = _ ∧
    (((s.move (.lock i)).move (.read i w)).move (.finish i w)).calls[i]? = _
  rw [move_lock there free, move_read (List.getElem?_set_self inside)]
  unfold read
  dsimp only
  have inside : i < (s.calls.set i ⟨inquiry, .reading⟩).length := by
    rw [List.length_set]
    exact inside
  cases read : s.registry.raw w with
  | error e =>
    rw [Inquiry.answered_of_unread read, move_finish_of_over (getElem?_close inside)]
    exact ⟨rfl, getElem?_close inside⟩
  | ok raw =>
    dsimp only
    cases known : inquiry.gates raw with
    | true =>
      rw [if_pos rfl, Inquiry.answered_of_gates read known,
        move_finish_of_over (getElem?_close inside)]
      exact ⟨rfl, getElem?_close inside⟩
    | false =>
      rw [if_neg Bool.false_ne_true, Inquiry.answered_of_new read known,
        move_finish (List.getElem?_set_self inside)]
      exact ⟨rfl, getElem?_finish (by rwa [List.length_set]) raw w⟩

end Service

end ToolGateway.Registry
