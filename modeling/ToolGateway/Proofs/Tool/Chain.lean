import Mathlib.Data.List.Basic
import Mathlib.Data.List.Nodup
import Mathlib.Data.List.Permutation
import ToolGateway.Tool.Mock

/-!
# The order in which links are entered

What a link may do with a call is written as a tree: it answers, or it passes a call on and goes on
with what comes back, as often as it likes. The same link can be watched: a traced link notes when
it is entered and when it is left, and does nothing else (`Link.run_traced`). The notes of a call are
nested like the links themselves (`Round`): a link is entered only while all links before it are at
work and none after it, so only by the one directly before it (`Round.inOrder`). How often links pass
a call on decides who is entered: nobody behind a link that withholds the call (`Round.entries_subset`),
and everybody once when each link passes it on once (`Round.entries_eq`), with the answer of the tool
on its way back through all of them (`Relays`). The statement about whole chains is `chain_spec`.
-/

namespace ToolGateway

variable {σ : Type}

/-! ### What links do -/

/-- What a link does with a call. It ends with an answer, or it passes a call on and goes on with
what comes back; the state is what it has made of it so far. -/
inductive Conduct (σ : Type) where
  | answers (s : σ) (answer : Answer)
  | passes (s : σ) (call : ToolCall) (resume : σ → Answer → Conduct σ)

namespace Conduct

/-- Goes through with it, for a given rest of the chain. -/
def run (next : ToolCall → StateM σ Answer) : Conduct σ → Answer × σ
  | .answers s answer => (answer, s)
  | .passes s call resume => (resume (next call s).2 (next call s).1).run next

/-- The call is answered without the rest of the chain. -/
def Answers : Conduct σ → Prop
  | .answers _ _ => True
  | .passes _ _ _ => False

/-- The call is passed on once, and whatever comes back is the end of it. -/
def PassesOnce : Conduct σ → Prop
  | .answers _ _ => False
  | .passes _ _ resume => ∀ s answer, (resume s answer).Answers

theorem Answers.exists_eq {c : Conduct σ} (h : c.Answers) : ∃ s answer, c = .answers s answer := by
  cases c with
  | answers s answer => exact ⟨s, answer, rfl⟩
  | passes _ _ _ => cases h

theorem PassesOnce.exists_eq {c : Conduct σ} (h : c.PassesOnce) :
    ∃ s call resume, c = .passes s call resume ∧ ∀ s answer, (resume s answer).Answers := by
  cases c with
  | answers _ _ => cases h
  | passes s call resume => exact ⟨s, call, resume, rfl, h⟩

end Conduct

/-- A link by what it does with each call. -/
structure Interceptor (σ : Type) where
  order : Int
  conduct : Context → ToolCall → σ → Conduct σ

namespace Interceptor

def link (i : Interceptor σ) : Link σ where
  order := i.order
  answer ctx call next := fun s => (i.conduct ctx call s).run next

/-- It never passes a call on. -/
def Withholds (i : Interceptor σ) : Prop := ∀ ctx call s, (i.conduct ctx call s).Answers

/-- It passes every call on, once. -/
def PassesOnce (i : Interceptor σ) : Prop := ∀ ctx call s, (i.conduct ctx call s).PassesOnce

/-- The link that answers with examples when it is enabled. -/
def mock (enabled : Bool) : Interceptor σ where
  order := Link.terminalOrder - 1
  conduct ctx call s :=
    if enabled then .answers s (.ok (Mock.result ctx)) else .passes s call .answers

theorem link_mock (enabled : Bool) : (mock enabled : Interceptor σ).link = Mock.link enabled := by
  cases enabled <;> rfl

theorem withholds_mock : (mock true : Interceptor σ).Withholds := fun _ _ _ => trivial

end Interceptor

/-! ### Watching a call -/

/-- A link, known by its number, is entered, or left with an answer. -/
inductive Note where
  | entered (n : Nat)
  | left (n : Nat) (answer : Answer)

namespace Note

/-- The number of a link that is entered. -/
def entry? : Note → Option Nat
  | .entered n => some n
  | .left _ _ => none

/-- The links at work after a note, the one entered last in front. -/
def after (links : List Nat) : Note → List Nat
  | .entered n => n :: links
  | .left _ _ => links.tail

end Note

/-- The numbers of the links that were entered, in order. -/
def entries (log : List Note) : List Nat := log.filterMap Note.entry?

/-- The links at work after some notes. -/
def atWork (links : List Nat) (log : List Note) : List Nat := log.foldl Note.after links

/-- The same conduct, with a note of the answer at its end. -/
def Conduct.traced (n : Nat) (log : List Note) : Conduct σ → Conduct (σ × List Note)
  | .answers s answer => .answers (s, log ++ [.left n answer]) answer
  | .passes s call resume =>
    .passes (s, log) call fun (s, log) answer => (resume s answer).traced n log

/-- The same interceptor, which notes when it is entered and left under a number. -/
def Interceptor.traced (i : Interceptor σ) (n : Nat) : Interceptor (σ × List Note) where
  order := i.order
  conduct := fun ctx call (s, log) => (i.conduct ctx call s).traced n (log ++ [.entered n])

/-- The notes of one call that goes to a list of links: the first of them is entered, it sends some
calls to the rest, and it is left. After the last link there is nobody to enter. -/
inductive Round : List (Interceptor σ × Nat) → List Note → Prop
  | exhausted : Round [] []
  | link {i : Interceptor σ} {n : Nat} {rest : List (Interceptor σ × Nat)}
      (rounds : List (List Note)) (answer : Answer) (inner : ∀ log ∈ rounds, Round rest log)
      (withheld : i.Withholds → rounds = []) (passed : i.PassesOnce → ∃ log, rounds = [log]) :
      Round ((i, n) :: rest) (.entered n :: (rounds.flatten ++ [.left n answer]))

/-- A watched conduct does the same, and notes what the calls that it passes on note. -/
theorem Conduct.run_traced {rest : List (Interceptor σ × Nat)}
    {next : ToolCall → StateM σ Answer} {watched : ToolCall → StateM (σ × List Note) Answer}
    (same : ∀ call s log, ∃ new, Round rest new ∧
      watched call (s, log) = ((next call s).1, ((next call s).2, log ++ new)))
    (c : Conduct σ) (n : Nat) (log : List Note) :
    ∃ rounds : List (List Note), (∀ log ∈ rounds, Round rest log) ∧
      (c.Answers → rounds = []) ∧ (c.PassesOnce → ∃ log, rounds = [log]) ∧
      (c.traced n log).run watched =
        ((c.run next).1, ((c.run next).2, log ++ (rounds.flatten ++ [.left n (c.run next).1]))) := by
  induction c generalizing log with
  | answers s answer =>
    refine ⟨[], by simp, fun _ => rfl, fun h => h.elim, ?_⟩
    simp [Conduct.traced, Conduct.run]
  | passes s call resume ih =>
    obtain ⟨new, round, ran⟩ := same call s log
    obtain ⟨rounds, inner, answered, -, resumed⟩ :=
      ih (next call s).2 (next call s).1 (log ++ new)
    refine ⟨new :: rounds, List.forall_mem_cons.mpr ⟨round, inner⟩, fun h => h.elim, ?_, ?_⟩
    · intro once
      exact ⟨new, congrArg (new :: ·) (answered (once _ _))⟩
    · simp only [Conduct.traced, Conduct.run, ran, resumed]
      simp

/-- Watching a chain changes neither what it answers nor the state that it leaves. -/
theorem Link.run_traced (ctx : Context) (chain : List (Interceptor σ × Nat)) (call : ToolCall)
    (s : σ) (log : List Note) :
    ∃ new, Round chain new ∧
      Link.run (chain.map fun p => (p.1.traced p.2).link) ctx call (s, log) =
        ((Link.run (chain.map (·.1.link)) ctx call s).1,
          ((Link.run (chain.map (·.1.link)) ctx call s).2, log ++ new)) := by
  induction chain generalizing call s log with
  | nil => exact ⟨[], .exhausted, by rw [List.append_nil]; rfl⟩
  | cons first rest ih =>
    obtain ⟨i, n⟩ := first
    obtain ⟨rounds, inner, withheld, passed, ran⟩ :=
      Conduct.run_traced ih (i.conduct ctx call s) n (log ++ [.entered n])
    rw [List.append_assoc] at ran
    exact ⟨_, .link rounds _ inner (fun h => withheld (h _ _ _)) (fun h => passed (h _ _ _)), ran⟩

/-! ### Who is entered, and by whom -/

/-- Whenever a link is entered, the links at work are those before it. -/
def InOrder (names links : List Nat) (log : List Note) : Prop :=
  ∀ before n rest, log = before ++ .entered n :: rest →
    ∃ k, names[k]? = some n ∧ atWork links before = (names.take k).reverse

namespace InOrder

variable {names links : List Nat} {log more : List Note}

theorem nil : InOrder names links [] := by
  intro before n rest h
  simp at h

theorem cons {note : Note}
    (first : ∀ n, note = .entered n → ∃ k, names[k]? = some n ∧ links = (names.take k).reverse)
    (rest : InOrder names (note.after links) log) : InOrder names links (note :: log) := by
  intro before n after h
  cases before with
  | nil =>
    obtain ⟨rfl, rfl⟩ := List.cons.inj h
    exact first n rfl
  | cons note' before =>
    obtain ⟨rfl, rfl⟩ := List.cons.inj h
    exact rest before n after rfl

theorem append (first : InOrder names links log) (rest : InOrder names (atWork links log) more) :
    InOrder names links (log ++ more) := by
  induction log generalizing links with
  | nil => exact rest
  | cons note log ih =>
    apply cons
    · rintro n rfl
      exact first [] n log rfl
    · apply ih
      · intro before n after h
        exact first (note :: before) n after (congrArg (note :: ·) h)
      · exact rest

end InOrder

namespace Round

variable {chain : List (Interceptor σ × Nat)} {log : List Note}

/-- Every link of a round is entered while exactly the links before it are at work, and at the end
as many are at work as at the start. -/
theorem inOrder (h : Round chain log) (front : List Nat) :
    InOrder (front ++ chain.map (·.2)) front.reverse log ∧
      atWork front.reverse log = front.reverse := by
  induction h generalizing front with
  | exhausted => exact ⟨.nil, rfl⟩
  | @link i n rest rounds answer _ _ _ ih =>
    have inside : ∀ rounds : List (List Note),
        (∀ log ∈ rounds, InOrder (front ++ n :: rest.map (·.2)) (n :: front.reverse) log ∧
          atWork (n :: front.reverse) log = n :: front.reverse) →
        InOrder (front ++ n :: rest.map (·.2)) (n :: front.reverse) rounds.flatten ∧
          atWork (n :: front.reverse) rounds.flatten = n :: front.reverse := by
      intro rounds each
      induction rounds with
      | nil => exact ⟨.nil, rfl⟩
      | cons log rounds ih =>
        obtain ⟨⟨order, back⟩, each⟩ := List.forall_mem_cons.mp each
        obtain ⟨orders, backs⟩ := ih each
        rw [List.flatten_cons]
        refine ⟨order.append (by rwa [back]), ?_⟩
        rw [atWork, List.foldl_append]
        exact (congrArg (atWork · rounds.flatten) back).trans backs
    have each : ∀ log ∈ rounds, InOrder (front ++ n :: rest.map (·.2)) (n :: front.reverse) log ∧
        atWork (n :: front.reverse) log = n :: front.reverse := by
      intro log hlog
      have := ih log hlog (front ++ [n])
      simpa using this
    obtain ⟨orders, backs⟩ := inside rounds each
    refine ⟨.cons ?_ (orders.append (.cons ?_ .nil)), ?_⟩
    · rintro m ⟨rfl⟩
      exact ⟨front.length, by simp⟩
    · rintro m ⟨⟩
    · show atWork (n :: front.reverse) (rounds.flatten ++ [.left n answer]) = front.reverse
      rw [atWork, List.foldl_append]
      show Note.after (atWork (n :: front.reverse) rounds.flatten) (.left n answer) = front.reverse
      rw [backs]
      rfl

theorem entries_link (n : Nat) (rounds : List (List Note)) (answer : Answer) :
    entries (.entered n :: (rounds.flatten ++ [.left n answer])) =
      n :: (rounds.map entries).flatten := by
  show n :: entries (rounds.flatten ++ [.left n answer]) = n :: (rounds.map entries).flatten
  rw [entries, List.filterMap_append, List.filterMap_flatten]
  exact congrArg (n :: ·) (List.append_nil _)

/-- Nobody behind a link that withholds the call is entered. -/
theorem entries_subset (h : Round chain log) {k : Nat} {i : Interceptor σ} {n : Nat}
    (there : chain[k]? = some (i, n)) (withholds : i.Withholds) :
    entries log ⊆ (chain.take (k + 1)).map (·.2) := by
  induction h generalizing k with
  | exhausted => simp at there
  | link rounds answer _ withheld _ ih =>
    rw [entries_link]
    cases k with
    | zero =>
      simp only [List.getElem?_cons_zero, Option.some.injEq, Prod.mk.injEq] at there
      obtain ⟨rfl, rfl⟩ := there
      simp [withheld withholds]
    | succ k =>
      rw [List.getElem?_cons_succ] at there
      intro m hm
      rw [List.take_succ_cons, List.map_cons, List.mem_cons]
      rcases List.mem_cons.mp hm with rfl | hm
      · exact Or.inl rfl
      · obtain ⟨names, hnames, hm⟩ := List.mem_flatten.mp hm
        obtain ⟨log, hlog, rfl⟩ := List.mem_map.mp hnames
        exact Or.inr (ih log hlog there hm)

/-- When every link passes the call on once and the last one withholds it, each is entered once, in
the order of the chain. -/
theorem entries_eq {front : List (Interceptor σ × Nat)} {terminal : Interceptor σ} {n : Nat}
    (h : Round (front ++ [(terminal, n)]) log) (withholds : terminal.Withholds)
    (pass : ∀ p ∈ front, p.1.PassesOnce) :
    entries log = (front ++ [(terminal, n)]).map (·.2) := by
  induction front generalizing log with
  | nil =>
    cases h with
    | link rounds answer _ withheld _ =>
      rw [entries_link, withheld withholds]
      rfl
  | cons first front ih =>
    cases h with
    | link rounds answer inner _ passed =>
      obtain ⟨passes, pass⟩ := List.forall_mem_cons.mp pass
      obtain ⟨log, rfl⟩ := passed passes
      rw [entries_link]
      simpa using ih (inner log List.mem_cons_self) pass

end Round

/-- A call goes down a chain once, and the answer comes back up: each link passes one call on and
ends with what it makes of the answer of the link after it. The last link answers by itself. -/
inductive Relays (ctx : Context) : List (Interceptor σ) → ToolCall → σ → Answer → σ → Prop
  | answers {i : Interceptor σ} {call : ToolCall} {s s' : σ} {answer : Answer}
      (last : i.conduct ctx call s = .answers s' answer) : Relays ctx [i] call s answer s'
  | passes {i : Interceptor σ} {rest : List (Interceptor σ)} {call call' : ToolCall}
      {s s₁ s₂ s' : σ} {back answer : Answer} {resume : σ → Answer → Conduct σ}
      (down : i.conduct ctx call s = .passes s₁ call' resume)
      (inner : Relays ctx rest call' s₁ back s₂) (up : resume s₂ back = .answers s' answer) :
      Relays ctx (i :: rest) call s answer s'

theorem relays_run (ctx : Context) {front : List (Interceptor σ)} {terminal : Interceptor σ}
    (withholds : terminal.Withholds) (pass : ∀ i ∈ front, i.PassesOnce) (call : ToolCall) (s : σ) :
    Relays ctx (front ++ [terminal]) call s
      (Link.run ((front ++ [terminal]).map (·.link)) ctx call s).1
      (Link.run ((front ++ [terminal]).map (·.link)) ctx call s).2 := by
  induction front generalizing call s with
  | nil =>
    obtain ⟨s', answer, last⟩ := (withholds ctx call s).exists_eq
    show Relays ctx [terminal] call s ((terminal.conduct ctx call s).run _).1
      ((terminal.conduct ctx call s).run _).2
    rw [last]
    exact .answers last
  | cons i front ih =>
    obtain ⟨once, pass⟩ := List.forall_mem_cons.mp pass
    obtain ⟨s₁, call', resume, down, ends⟩ := (once ctx call s).exists_eq
    have inner := ih pass call' s₁
    show Relays ctx (i :: (front ++ [terminal])) call s ((i.conduct ctx call s).run _).1
      ((i.conduct ctx call s).run _).2
    rw [down, Conduct.run]
    generalize Link.run ((front ++ [terminal]).map (·.link)) ctx call' s₁ = back at inner ⊢
    obtain ⟨s', answer, up⟩ := (ends back.2 back.1).exists_eq
    rw [up]
    exact .passes down inner up

/-- What comes after a link that answers by itself does not matter. -/
theorem run_append_of_withholds (ctx : Context) {terminal : Interceptor σ}
    (withholds : terminal.Withholds) (front more : List (Link σ)) (call : ToolCall) (s : σ) :
    Link.run (front ++ [terminal.link] ++ more) ctx call s =
      Link.run (front ++ [terminal.link]) ctx call s := by
  induction front generalizing call s with
  | nil =>
    obtain ⟨s', answer, last⟩ := (withholds ctx call s).exists_eq
    show (terminal.conduct ctx call s).run _ = (terminal.conduct ctx call s).run _
    rw [last]
    rfl
  | cons link front ih =>
    have same : Link.run (front ++ [terminal.link] ++ more) ctx =
        Link.run (front ++ [terminal.link]) ctx := funext fun call => funext (ih call)
    show link.answer ctx call (Link.run (front ++ [terminal.link] ++ more) ctx) s =
      link.answer ctx call (Link.run (front ++ [terminal.link]) ctx) s
    rw [same]

/-! ### Whole chains -/

namespace Interceptor

/-- Whether an interceptor may stand before another one. -/
def noLater (a b : Interceptor σ × Nat) : Bool := decide (a.1.order ≤ b.1.order)

theorem noLater_trans (a b c : Interceptor σ × Nat) (hab : noLater a b = true)
    (hbc : noLater b c = true) : noLater a c = true := by
  simp only [noLater, decide_eq_true_eq] at hab hbc ⊢
  exact Int.le_trans hab hbc

theorem noLater_total (a b : Interceptor σ × Nat) : (noLater a b || noLater b a) = true := by
  simpa [noLater] using Int.le_total a.1.order b.1.order

/-- Interceptors with their numbers, lower orders first. -/
def ranked (interceptors : List (Interceptor σ)) : List (Interceptor σ × Nat) :=
  interceptors.zipIdx.mergeSort noLater

theorem perm_ranked (interceptors : List (Interceptor σ)) :
    (ranked interceptors).Perm interceptors.zipIdx :=
  List.mergeSort_perm _ _

/-- Those of one order stay as they were given. -/
theorem filter_ranked (interceptors : List (Interceptor σ)) (order : Int) :
    (ranked interceptors).filter (·.1.order = order) =
      interceptors.zipIdx.filter (·.1.order = order) := by
  have level : (interceptors.zipIdx.filter (·.1.order = order)).Pairwise
      fun a b => noLater a b = true := by
    apply List.pairwise_of_forall_mem_list
    intro a ha b hb
    simp only [List.mem_filter, decide_eq_true_eq] at ha hb
    simp [noLater, ha.2, hb.2]
  have sub : (interceptors.zipIdx.filter (·.1.order = order)).Sublist (ranked interceptors) :=
    List.sublist_mergeSort noLater_trans noLater_total level List.filter_sublist
  have kept := sub.filter (·.1.order = order)
  rw [List.filter_filter] at kept
  simp only [Bool.and_self] at kept
  exact (kept.eq_of_length ((perm_ranked interceptors).filter _).length_eq.symm).symm

/-- Lower orders come first, and of two interceptors of one order the one that was given first. -/
theorem pairwise_ranked (interceptors : List (Interceptor σ)) :
    (ranked interceptors).Pairwise fun a b =>
      a.1.order < b.1.order ∨ a.1.order = b.1.order ∧ a.2 < b.2 := by
  rw [List.pairwise_iff_forall_sublist]
  intro a b sub
  have sorted : (ranked interceptors).Pairwise fun a b => noLater a b = true :=
    List.pairwise_mergeSort noLater_trans noLater_total _
  have le : noLater a b = true := List.pairwise_iff_forall_sublist.mp sorted sub
  rw [noLater, decide_eq_true_eq] at le
  rcases Int.lt_or_eq_of_le le with lt | eq
  · exact Or.inl lt
  · refine Or.inr ⟨eq, ?_⟩
    have both := sub.filter (·.1.order = b.1.order)
    rw [filter_ranked] at both
    have given : [a, b].Sublist interceptors.zipIdx := by
      simpa [eq] using both.trans List.filter_sublist
    have numbers := given.map (·.2)
    rw [List.zipIdx_map_snd] at numbers
    simpa using List.pairwise_iff_forall_sublist.mp List.pairwise_lt_range' numbers

/-- The chain of a tool with the numbers of its links; the tool has the last number. -/
def lineup (terminal : Interceptor σ) (interceptors : List (Interceptor σ)) :
    List (Interceptor σ × Nat) :=
  ranked interceptors ++ [(terminal, interceptors.length)]

variable (terminal : Interceptor σ) (interceptors : List (Interceptor σ))

/-- A chain has its links in the order of their numbers in the line-up, whatever is made of them. -/
theorem chain_eq_map {τ : Type} (f : Interceptor σ × Nat → Link τ)
    (same : ∀ p, (f p).order = p.1.order) :
    Link.chain (f (terminal, interceptors.length)) (interceptors.zipIdx.map f) =
      (lineup terminal interceptors).map f := by
  have sorted : Link.sorted (interceptors.zipIdx.map f) = (ranked interceptors).map f := by
    refine (List.map_mergeSort ?_).symm
    intro a _ b _
    rw [noLater, same, same]
  rw [Link.chain, sorted, lineup, List.map_append]
  rfl

theorem chain_link :
    Link.chain terminal.link (interceptors.map (·.link)) =
      (lineup terminal interceptors).map (·.1.link) := by
  have numbered : interceptors.map (·.link) = interceptors.zipIdx.map (·.1.link) := by
    conv_lhs => rw [← List.zipIdx_map_fst 0 interceptors]
    rw [List.map_map]
    rfl
  rw [numbered]
  exact chain_eq_map terminal interceptors (·.1.link) fun _ => rfl

/-- The numbers of the interceptors and of the tool, each once. -/
theorem perm_numbers :
    ((lineup terminal interceptors).map (·.2)).Perm (List.range (interceptors.length + 1)) := by
  have numbers := (perm_ranked interceptors).map (·.2)
  rw [List.zipIdx_map_snd, ← List.range_eq_range'] at numbers
  rw [lineup, List.map_append, List.range_succ]
  exact numbers.append_right _

theorem nodup_numbers : ((lineup terminal interceptors).map (·.2)).Nodup :=
  (perm_numbers terminal interceptors).nodup_iff.mpr List.nodup_range

end Interceptor

open Interceptor in
/-- A call that goes to the chain of a tool, whose last link answers by itself. Watching it changes
nothing, and its answer does not depend on what would come after the tool, so the chain is never
exhausted. The links stand in ascending order with the tool last. A link is entered only while
exactly those before it are at work. When each interceptor passes the call on once, each link is
entered once, in order, and the answer of the tool comes back through all of them. Nobody behind a
link that withholds the call is entered. -/
theorem chain_spec (terminal : Interceptor σ) (interceptors : List (Interceptor σ)) (ctx : Context)
    (call : ToolCall) (s : σ) (answers : terminal.Withholds) :
    let chain := Link.chain terminal.link (interceptors.map (·.link))
    let watched := Link.chain (terminal.traced interceptors.length).link
      (interceptors.zipIdx.map fun (i, n) => (i.traced n).link)
    let links := ranked interceptors ++ [(terminal, interceptors.length)]
    let names := links.map (·.2)
    let result := Link.run chain ctx call s
    ∃ log, Link.run watched ctx call (s, []) = (result.1, (result.2, log)) ∧
      (∀ more, Link.run (chain ++ more) ctx call s = result) ∧
      ((ranked interceptors).Perm interceptors.zipIdx ∧
        (ranked interceptors).Pairwise fun a b =>
          a.1.order < b.1.order ∨ a.1.order = b.1.order ∧ a.2 < b.2) ∧
      (∀ before n rest, log = before ++ .entered n :: rest →
        ∃ k, names[k]? = some n ∧ atWork [] before = (names.take k).reverse) ∧
      ((∀ i ∈ interceptors, i.PassesOnce) →
        entries log = names ∧ Relays ctx (links.map (·.1)) call s result.1 result.2) ∧
      (∀ (k : Nat) (i : Interceptor σ) (n : Nat), links[k]? = some (i, n) → i.Withholds →
        ∀ later m, k < later → names[later]? = some m → m ∉ entries log) ∧
      ((mock true : Interceptor σ).Withholds ∧
        (mock true : Interceptor σ).link = Mock.link true) := by
  have watched : Link.chain (terminal.traced interceptors.length).link
      (interceptors.zipIdx.map fun (i, n) => (i.traced n).link) =
      (lineup terminal interceptors).map fun p => (p.1.traced p.2).link :=
    chain_eq_map terminal interceptors (fun p => (p.1.traced p.2).link) fun _ => rfl
  obtain ⟨log, round, ran⟩ := Link.run_traced ctx (lineup terminal interceptors) call s []
  rw [← chain_link, List.nil_append] at ran
  refine ⟨log, (congrArg (Link.run · ctx call (s, [])) watched).trans ran, ?_,
    ⟨perm_ranked interceptors, pairwise_ranked interceptors⟩, ?_, ?_, ?_,
    withholds_mock, link_mock true⟩
  · intro more
    exact run_append_of_withholds ctx answers _ more call s
  · exact (round.inOrder []).1
  · intro pass
    have passes : ∀ p ∈ ranked interceptors, p.1.PassesOnce := by
      intro p hp
      have given := (perm_ranked interceptors).mem_iff.mp hp
      exact pass p.1 (List.fst_mem_of_mem_zipIdx given)
    refine ⟨round.entries_eq answers passes, ?_⟩
    have relays := relays_run ctx answers (List.forall_mem_map.mpr passes) call s
    simp only [chain_link, lineup, List.map_append, List.map_map] at relays ⊢
    exact relays
  · intro k i n there withholds later m lt hm mem
    have first := round.entries_subset there withholds mem
    rw [List.map_take] at first
    have behind : (((lineup terminal interceptors).map (·.2)).drop (k + 1))[later - (k + 1)]? =
        some m := by
      rw [List.getElem?_drop, Nat.add_sub_cancel' lt]
      exact hm
    exact List.disjoint_take_drop (nodup_numbers terminal interceptors) (Nat.le_refl _) first
      (List.mem_of_getElem? behind)

namespace Interceptor.Sample

/-- A tool that answers with the name it is called by. -/
def tool : Interceptor Unit where
  order := Link.terminalOrder
  conduct _ call s := .answers s (.ok (.success call.name))

theorem withholds_tool : tool.Withholds := fun _ _ _ => trivial

/-- Passes every call on once. -/
def passing (order : Int) : Interceptor Unit where
  order
  conduct _ call s := .passes s call .answers

/-- Passes every call on twice, the second time under another name. -/
def twice (order : Int) : Interceptor Unit where
  order
  conduct _ call s := .passes s call fun s _ => .passes s { call with name := "again" } .answers

def interceptors : List (Interceptor Unit) := [twice 100, mock true, passing 0, passing 0]

theorem ranked_interceptors :
    ranked interceptors = [(passing 0, 2), (passing 0, 3), (twice 100, 0), (mock true, 1)] := by
  cbv

end Interceptor.Sample

open Interceptor Interceptor.Sample in
/-- The statement at a chain in which a link passes the call on twice to one that withholds it. The
two links of order 0 come first, in their order, and the tool is never entered. -/
theorem chain_spec_withheld : tool.Withholds ∧ (mock true : Interceptor Unit).Withholds ∧
    ∃ log, Link.run (Link.chain (tool.traced 4).link
        (interceptors.zipIdx.map fun (i, n) => (i.traced n).link)) default default ((), []) =
      (.ok (Mock.result default), ((), log)) ∧
      (∀ before n rest, log = before ++ .entered n :: rest →
        ∃ k, [2, 3, 0, 1, 4][k]? = some n ∧
          atWork [] before = ([2, 3, 0, 1, 4].take k).reverse) ∧
      4 ∉ entries log ∧ entries log = [2, 3, 0, 1, 1] := by
  obtain ⟨log, ran, -, -, order, -, withheld, withholds, -⟩ :=
    chain_spec tool interceptors default default () withholds_tool
  have result : Link.run (Link.chain tool.link (interceptors.map (·.link))) default default () =
      (.ok (Mock.result default), ()) := by cbv
  have entered : entries (Link.run (Link.chain (tool.traced 4).link
      (interceptors.zipIdx.map fun (i, n) => (i.traced n).link)) default default ((), [])).2.2 =
      [2, 3, 0, 1, 1] := by cbv
  rw [ranked_interceptors] at order withheld
  refine ⟨withholds_tool, withholds, log, ?_, order, ?_, ?_⟩
  · exact ran.trans (by rw [result])
  · exact withheld 3 (mock true) 1 rfl withholds 4 4 (by decide) rfl
  · exact (congrArg (fun r => entries r.2.2) ran).symm.trans entered

end ToolGateway
