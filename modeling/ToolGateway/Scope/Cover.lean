import ToolGateway.Scope.Basic

/-!
# Covers

A cover of groups of scopes has a scope of every group that is not empty. A small one is found by
taking, again and again, the scope that is in the most groups which are not covered yet, and of
several such scopes the first by name. `Scope.greedy` says just that. `Scope.cover` finds the same
set with less counting: candidates wait in a queue with the counts that they once had, and only the
count of the foremost one is brought up to date.
-/

namespace ToolGateway.Scope

def groupsWith (s : String) (groups : List (List String)) : Nat :=
  (groups.filter (·.contains s)).length

def without (s : String) (groups : List (List String)) : List (List String) :=
  groups.filter (!·.contains s)

/-- The groups as sets, without the empty ones. -/
def requirements (groups : List (List String)) : List (List String) :=
  (groups.map setOf).filter (!·.isEmpty)

/-! ### Counting anew every time -/

/-- Of some scopes, the first of those that are in the most groups. -/
def best? (groups : List (List String)) : List String → Option String
  | [] => none
  | s :: rest =>
    match best? groups rest with
    | none => some s
    | some t => if groupsWith s groups < groupsWith t groups then some t else some s

/-- The scopes that are taken to cover groups, in the order in which they are taken. -/
def picks (groups : List (List String)) : List String :=
  match best? groups (setOf groups.flatten) with
  | none => []
  | some s =>
    if (without s groups).length < groups.length then s :: picks (without s groups) else []
termination_by groups.length

/-- The cover by the scope that is in the most groups, taken again and again. -/
def greedy (groups : List (List String)) : List String := setOf (picks (requirements groups))

/-! ### Counting when it matters -/

/-- A scope that may be taken, and the number of groups that it was in when they were counted. -/
structure Candidate where
  count : Nat
  scope : String
deriving DecidableEq, Repr, Inhabited

/-- Whether a candidate comes before another one: it has more groups, or as many and a lesser name.
-/
def Candidate.before (a b : Candidate) : Bool :=
  b.count < a.count || (a.count == b.count && a.scope < b.scope)

/-- Puts a candidate into a queue, behind those that come before it. -/
def enqueue (c : Candidate) : List Candidate → List Candidate
  | [] => [c]
  | d :: rest => if c.before d then c :: d :: rest else d :: enqueue c rest

/-- The queue of all scopes of groups, with their counts. -/
def queueOf (groups : List (List String)) : List Candidate :=
  (setOf groups.flatten).foldl (fun queue s => enqueue ⟨groupsWith s groups, s⟩ queue) []

/-- A search for a cover: the queue, the groups that are not covered yet and their number, and the
scopes that were taken. -/
structure Search where
  queue : List Candidate
  uncovered : List (List String)
  left : Nat
  taken : List String
deriving DecidableEq, Repr, Inhabited

namespace Search

/-- The start of a search. -/
def start (groups : List (List String)) : Search := ⟨queueOf groups, groups, groups.length, []⟩

/-- One step: the foremost candidate is dropped when it covers nothing, put back when its count is
too high, and taken otherwise. The search is over when there is nothing left to cover. -/
def step? (s : Search) : Option Search :=
  if s.left = 0 then none
  else
    match s.queue with
    | [] => none
    | top :: rest =>
      -- Counts only fall, so a count that still holds is the greatest.
      let live := groupsWith top.scope s.uncovered
      if live = 0 then some { s with queue := rest }
      else if live < top.count then some { s with queue := enqueue ⟨live, top.scope⟩ rest }
      else
        some {
          queue := rest
          uncovered := without top.scope s.uncovered
          left := s.left - live
          taken := insert top.scope s.taken }

/-- What a queue can still cost: it shrinks with every step. -/
def cost : List Candidate → Nat
  | [] => 0
  | c :: queue => c.count + 1 + cost queue

theorem cost_enqueue (c : Candidate) (queue : List Candidate) :
    cost (enqueue c queue) = c.count + 1 + cost queue := by
  induction queue with
  | nil => simp [enqueue, cost]
  | cons d rest ih =>
    simp only [enqueue]
    split
    · simp only [cost]
    · simp only [cost, ih]
      omega

theorem cost_lt_of_step? {s t : Search} (h : s.step? = some t) : cost t.queue < cost s.queue := by
  unfold step? at h
  split at h
  · simp at h
  · split at h
    · simp at h
    · rename_i top rest hq
      have hc : cost s.queue = top.count + 1 + cost rest := by simp [hq, cost]
      dsimp only at h
      split at h
      · cases h
        simp only [hc]
        omega
      · split at h
        · cases h
          simp only [hc, cost_enqueue]
          omega
        · cases h
          simp only [hc]
          omega

/-- Goes on until the search is over. -/
def run (s : Search) : Search :=
  match _h : s.step? with
  | none => s
  | some t => run t
termination_by cost s.queue
decreasing_by exact cost_lt_of_step? (by assumption)

end Search

/-- A small set that has a scope of every group that is not empty. -/
def cover (groups : List (List String)) : List String :=
  (Search.start (requirements groups)).run.taken

end ToolGateway.Scope
