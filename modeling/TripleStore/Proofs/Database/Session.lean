import TripleStore.Database.Session
import TripleStore.Proofs.Database.Answer
import TripleStore.Proofs.Walk.Queue

/-!
# Remembering is not to be seen

A cursor remembers the entities it read, and while it does more is inserted.  It
may forget them at any time, and no answer and no bindings are other for that.

Two cursors are twins if they differ in their memories alone and what either
remembers is what the tables say.  Twins read the same, so a request leaves twins.
An insertion leaves twins because every record that could be read stays as it is,
which holds as long as the clock moves forward.  That a key had no record is not
remembered, as it may get one.
-/

namespace TripleStore

/-! ## Memories -/

namespace Cursor

variable {t t' : Tables} {c c' : Cursor} {α : Type} {P : α → Prop} {m : Reading α}

/-- What is remembered after a reading was remembered before, or was read. -/
theorem getElem?_remember {log : ReadLog} {k : Key} {e : Entity}
    (h : (c.remember log).cache[k]? = some e) : c.cache[k]? = some e ∨ (k, e) ∈ log := by
  induction log generalizing c with
  | nil => exact .inl h
  | cons p log ih =>
    rcases ih (c := { c with cache := c.cache.insertIfNew p.1 p.2 }) h with hold | hread
    · simp only [Std.ExtTreeMap.getElem?_insertIfNew, Std.LawfulEqOrd.compare_eq_iff_eq] at hold
      split at hold
      · next hnew =>
        obtain rfl := hnew.1
        exact .inr (Option.some.inj hold ▸ List.mem_cons_self)
      · exact .inl hold
    · exact .inr (List.mem_cons_of_mem _ hread)

/-- A cursor remembers what it read, and that is what the tables say. -/
theorem Faithful.run (h : c.Faithful t) (hm : m.Confined (fun _ => True) P) :
    (c.run t m).2.Faithful t := by
  intro k e he
  rcases getElem?_remember he with he | he
  · exact h k e he
  · have hread := (hm.log (c.source t) (Source.closed_true _) _ he).2
    rwa [h.source] at hread

theorem Faithful.mono (h : c.Faithful t)
    (hkeep : ∀ k e, t.store.entity k = .ok e → t'.store.entity k = .ok e) : c.Faithful t' :=
  fun k e he => hkeep k e (h k e he)

theorem Faithful.forget : c.forget.Faithful t := faithful_of_cache rfl

/-- Two cursors that differ in what they remember, which the tables say. -/
structure Twins (t : Tables) (c c' : Cursor) : Prop where
  /-- The one remembers what the tables say. -/
  left : c.Faithful t
  /-- So does the other. -/
  right : c'.Faithful t
  /-- Without their memories they are the same. -/
  forget : c.forget = c'.forget

namespace Twins

theorem graph (h : Twins t c c') : c.graph = c'.graph := (Cursor.ext_iff.mp h.forget).1

theorem version (h : Twins t c c') : c.version = c'.version := (Cursor.ext_iff.mp h.forget).2.1

theorem relation (h : Twins t c c') : c.relation = c'.relation :=
  (Cursor.ext_iff.mp h.forget).2.2.2.1

theorem source (h : Twins t c c') : c.source t = c'.source t := by
  rw [h.left.source, h.right.source]

/-- Twins read the same, and are twins afterwards. -/
theorem run (h : Twins t c c') (hm : m.Confined (fun _ => True) P) :
    (c.run t m).1 = (c'.run t m).1 ∧ Twins t (c.run t m).2 (c'.run t m).2 := by
  refine ⟨?_, h.left.run hm, h.right.run hm, h.forget⟩
  rw [Cursor.run, Cursor.run, h.source]

/-- The bindings may be replaced. -/
theorem withRelation (h : Twins t c c') (relation : Relation) :
    Twins t { c with relation } { c' with relation } := by
  refine ⟨h.left, h.right, ?_⟩
  show ({ c.forget with relation } : Cursor) = { c'.forget with relation }
  rw [h.forget]

theorem step (h : Twins t c c') (s : Step) :
    (s.run t c).1 = (s.run t c').1 ∧ Twins t (s.run t c).2 (s.run t c').2 := by
  have hafter := (h.run (Operator.found_confined_all s.operator s.term c.relation)).2
  rw [Step.run_eq, Step.run_eq, ← h.relation, ← h.source]
  rw [Cursor.run, Cursor.run, ← h.source] at hafter
  split
  · exact ⟨rfl, hafter.withRelation _⟩
  · exact ⟨rfl, hafter⟩

end Twins

end Cursor

/-! ## Requests -/

open Reading Confined in
/-- A question is answered by reading. -/
theorem Question.confined (q : Question) : q.reading.Confined (fun _ => True) fun _ => True := by
  cases q with
  | entity k => exact (Confined.entity trivial).bind fun _ _ => give trivial
  | follow d start seg =>
    rw [reading, followQueue_eq]
    exact (Confined.follow trivial).bind fun _ _ => give trivial
  | objects s path => exact (Confined.objects trivial).bind fun _ _ => give trivial
  | subjects o path => exact (Confined.subjects trivial).bind fun _ _ => give trivial
  | predicatePairs p => exact (Confined.predicatePairs trivial).bind fun _ _ => give trivial
  | pathPairs path => exact (Confined.pathPairs fun _ _ => trivial).bind fun _ _ => give trivial
  | predicatesBetween s o =>
    exact (Confined.predicatesBetween trivial).bind fun _ _ => give trivial
  | statementsInto o => exact (Confined.statementsInto trivial).bind fun _ _ => give trivial
  | statementsFrom s => exact (Confined.statementsFrom trivial).bind fun _ _ => give trivial

namespace Session

variable {x y : Session}

/-- Two sessions that differ in what the cursors remember. -/
structure Alike (x y : Session) : Prop where
  /-- The database is the same. -/
  database : x.database = y.database
  /-- The cursors are twins. -/
  cursors : Cursor.Twins x.database.tables x.cursor y.cursor

/-- What can be read stays as it is when a request is served. -/
def Keeps (x : Session) (r : Request) : Prop :=
  ∀ k e, x.database.tables.store.entity k = .ok e →
    (x.serve r).2.database.tables.store.entity k = .ok e

/-- A request has the same outcome in sessions that are alike, and leaves them alike. -/
theorem Alike.serve (h : Alike x y) {r : Request} (hkeep : x.Keeps r) :
    (x.serve r).1 = (y.serve r).1 ∧ Alike (x.serve r).2 (y.serve r).2 := by
  obtain ⟨db, c⟩ := x
  obtain ⟨db', c'⟩ := y
  obtain ⟨rfl, hc⟩ := h
  cases r with
  | ask q =>
    obtain ⟨hanswer, hafter⟩ := hc.run q.confined
    exact ⟨hanswer, rfl, hafter⟩
  | entities =>
    refine ⟨?_, rfl, hc⟩
    show (c.entities db.tables).map _ = (c'.entities db.tables).map _
    rw [Cursor.entities, Cursor.entities, hc.graph, hc.version]
  | rows vars =>
    refine ⟨?_, rfl, hc⟩
    show (c.termRows db.tables vars).map _ = (c'.termRows db.tables vars).map _
    rw [Cursor.termRows, Cursor.termRows, Cursor.keyRows, Cursor.keyRows, hc.relation]
  | restart vars => exact ⟨rfl, rfl, hc.withRelation _⟩
  | step s =>
    obtain ⟨houtcome, hafter⟩ := hc.step s
    exact ⟨congrArg (Except.map _) houtcome, rfl, hafter⟩
  | insert i => exact ⟨rfl, rfl, hc.left.mono hkeep, hc.right.mono hkeep, hc.forget⟩

theorem Alike.forget (h : Alike x y) : Alike x.forget y :=
  ⟨h.database, Cursor.Faithful.forget, h.cursors.right, h.cursors.forget⟩

end Session

/-! ## Sessions -/

/-- The insertion that a request is for. -/
def Request.insertion? : Request → Option Insertion
  | .insert i => some i
  | _ => none

/-- The request among what happens in a session. -/
def Event.request? : Event → Option Request
  | .request r => some r
  | .forget => none

namespace Database

/-- The clock moves forward from insertion to insertion, and what is inserted fits a memory. -/
def Advances (clock : List UInt64) (db : Database) : List Insertion → Prop
  | [] => True
  | i :: is =>
    (i.now :: clock).Pairwise (· > ·) ∧ db.Fits i.graph i.dataset ∧
      Advances (i.now :: clock) (db.insertion i).2 is

end Database

namespace Session

variable {x y : Session} {clock : List UInt64}

/-- What is seen of a session is what is seen of its requests alone, by a cursor that never
forgets. -/
theorem Alike.observe (h : Alike x y) (hr : Database.Reached clock x.database)
    {es : List Event}
    (hadv : x.database.Advances clock ((es.filterMap Event.request?).filterMap Request.insertion?)) :
    x.observe es = y.answers (es.filterMap Event.request?) := by
  induction es generalizing x y clock with
  | nil => rfl
  | cons event es ih =>
    cases event with
    | forget => exact ih h.forget hr hadv
    | request r =>
      have hstep : (∃ clock', Database.Reached clock' (x.serve r).2.database ∧
          (x.serve r).2.database.Advances clock'
            ((es.filterMap Event.request?).filterMap Request.insertion?)) ∧ x.Keeps r := by
        cases r with
        | insert i =>
          obtain ⟨hclock, hfit, hadv⟩ := hadv
          exact ⟨⟨_, .insert i.now i.graph i.dataset hr hfit, hadv⟩,
            fun k e he => hr.insert_entity hclock hfit he⟩
        | _ => exact ⟨⟨clock, hr, hadv⟩, fun _ _ he => he⟩
      obtain ⟨⟨clock', hr', hadv'⟩, hkeep⟩ := hstep
      obtain ⟨houtcome, hafter⟩ := h.serve hkeep
      show Observation.mk _ _ :: _ = Observation.mk _ _ :: _
      rw [houtcome, hafter.cursors.relation, ih hafter hr' hadv']

end Session

namespace Database

variable {db : Database} {graph : String} {time : Option UInt64} {c : Cursor}
  {clock : List UInt64}

/-- Wherever a cursor forgets what it read, its answers and its bindings are the same, whatever
is asked of it and whatever is inserted meanwhile. -/
theorem observe_congr (hr : Reached clock db) (hcursor : db.cursor graph time = .ok c)
    {es es' : List Event} (hsame : es.filterMap Event.request? = es'.filterMap Event.request?)
    (hadv : db.Advances clock ((es.filterMap Event.request?).filterMap Request.insertion?)) :
    Session.observe ⟨db, c⟩ es = Session.observe ⟨db, c⟩ es' := by
  obtain ⟨v, -, rfl⟩ := cursor_eq_ok.mp hcursor
  have halike : Session.Alike ⟨db, .new graph v (db.namespaces graph)⟩ ⟨db, .new graph v _⟩ :=
    ⟨rfl, Cursor.faithful_new, Cursor.faithful_new, rfl⟩
  rw [halike.observe hr hadv, halike.observe hr (hsame ▸ hadv), hsame]

/-- What the start of the chain leads to. -/
def fromStartOn : Request :=
  .ask (.follow .forward (.ofUri "g" ⟨"", "a"⟩ 1) ⟨.ofUri "g" ⟨"", "p"⟩ 1, .onePlus⟩)

/-- The insertion that makes the chain a cycle. -/
def closingThen : Request := .insert ⟨2, "g", closing⟩

/-- The cursor forgets before the insertion and after it. -/
theorem observe_congr_chained :
    (chained.insertion ⟨2, "g", closing⟩).1 = .ok 2 ∧
      ∃ c, chained.cursor "g" none = .ok c ∧
        Session.observe ⟨chained, c⟩
            [.request fromStartOn, .request closingThen, .request fromStartOn] =
          Session.observe ⟨chained, c⟩ [.request fromStartOn, .forget, .request closingThen,
            .forget, .request fromStartOn] := by
  have hok : (chained.insertion ⟨2, "g", closing⟩).1 = .ok 2 :=
    eq_ok_of_toOption (by decide +kernel)
  have hresolve : chained.resolve "g" none = .ok 1 := eq_ok_of_toOption (by decide +kernel)
  have hcursor : chained.cursor "g" none = .ok (.new "g" 1 (chained.namespaces "g")) :=
    cursor_eq_ok.mpr ⟨1, hresolve, rfl⟩
  have hfits : chained.Fits "g" closing := by decide +kernel
  have hadv : chained.Advances [1] [⟨2, "g", closing⟩] := ⟨by decide, hfits, trivial⟩
  exact ⟨hok, _, hcursor, observe_congr reached_chained hcursor rfl hadv⟩

end Database

end TripleStore
