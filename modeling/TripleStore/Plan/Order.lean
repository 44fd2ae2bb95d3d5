import TripleStore.Query.Term

/-!
# The order of terms

Terms are run in an order of their own.  The first is the first one with a single
variable, or else with two, or else with three, or else the first of all.  After
that comes always the one that shares the most variables with some term placed
before it, and of several the earliest.

So a term that shares no variable with those before it comes only when no
remaining term shares one.
-/

namespace TripleStore

namespace Plan

/-- A term and where it stands in the query. -/
abbrev Indexed := Nat × Term

/-- The most variables a term shares with one of some others. -/
def nearness (placed : List Indexed) (t : Indexed) : Nat :=
  placed.foldl (fun n p => max n (t.2.overlap p.2)) 0

/-- The earliest of some terms for which a measure is greatest. -/
def earliestBest (measure : Indexed → Nat) : Indexed → List Indexed → Indexed
  | best, [] => best
  | best, t :: ts => earliestBest measure (if measure best < measure t then t else best) ts

/-- The term to begin with. -/
def seed (first : Indexed) (rest : List Indexed) : Indexed :=
  let having (n : Nat) := (first :: rest).find? fun t => t.2.vars.length = n
  ((having 1).or ((having 2).or (having 3))).getD first

/-- Take the term with a given index out of some terms. -/
def without (i : Nat) (ts : List Indexed) : List Indexed := ts.eraseP fun t => t.1 = i

/-- Place the remaining terms after those placed already.  The first argument is
the number of remaining terms. -/
def placeAll : Nat → List Indexed → List Indexed → List Indexed
  | 0, placed, _ => placed
  | _, placed, [] => placed
  | n + 1, placed, t :: ts =>
    let next := earliestBest (nearness placed) t ts
    placeAll n (placed ++ [next]) (without next.1 (t :: ts))

/-- Terms in the order in which they are run, with where they stand in the query. -/
def order (terms : List Term) : List Indexed :=
  match terms.mapIdx fun i t => (i, t) with
  | [] => []
  | t :: ts =>
    let first := seed t ts
    placeAll ts.length [first] (without first.1 (t :: ts))

end Plan

end TripleStore
