import JsonTemplate.Proofs.Evaluation.Isolation
import JsonTemplate.Proofs.Evaluation.Visits
import JsonTemplate.Proofs.Json.Members

/-!
# Objects as folds of their pairs

The pairs of an object literal are built from the first to the last, and each value is inserted
into the object that the values before it make. That object is what the value sees as `this`, and
it is also what the pairs before it are built to alone, so every front of the pairs is built
whenever all of them are. A name that comes again changes the value at the place that it already
has; what a block has seen before stays as it was, because it was copied.
-/

namespace JsonTemplate

namespace Json

/-- Members that names make with values that are given one after the other. -/
structure HoldsLast (names : List String) (values : List Json) (members : List (String × Json)) :
    Prop where
  /-- The names stand in the order in which they first occur. -/
  order : Json.names members = names.eraseDups
  /-- A name has the value of its last occurrence. -/
  last : ∀ j name value, names[j]? = some name → values[j]? = some value →
    name ∉ names.drop (j + 1) → members.lookup name = some value

/-- Names with as many values are the names of the members. -/
theorem names_zip {names : List String} {values : List Json} (h : values.length = names.length) :
    Json.names (names.zip values) = names :=
  List.map_fst_zip h.ge

/-- Inserting the values in turn leaves each name with its last value. -/
theorem holdsLast_insertMembers {names : List String} {values : List Json}
    (h : values.length = names.length) :
    HoldsLast names values (insertMembers [] (names.zip values)) where
  order := by rw [names_insertMembers, names_zip h]
  last := by
    intro j name value hname hvalue hlast
    have hmember : (names.zip values)[j]? = some (name, value) :=
      List.getElem?_zip_eq_some.mpr ⟨hname, hvalue⟩
    obtain ⟨hj, hget⟩ := List.getElem?_eq_some_iff.mp hmember
    have hlater : name ∉ Json.names ((names.zip values).drop (j + 1)) := by
      rwa [Json.names, List.map_drop, ← Json.names, names_zip h]
    rw [← List.take_append_drop j (names.zip values), insertMembers_append,
      List.drop_eq_getElem_cons hj, hget]
    exact (lookup_insertMembers_of_notMem hlater _).trans
      ((lookup_insertMember ..).trans (if_pos rfl))

end Json

namespace Node

variable {rounds : Nat} {pairs : List (String × Node)} {values : List Json}
  {environment after : Environment}

/-- What the first pairs make of an object when they have these values. -/
def membersBefore (sofar : List (String × Json)) (pairs : List (String × Node))
    (values : List Json) (j : Nat) : List (String × Json) :=
  Json.insertMembers sofar (((pairs.map (·.1)).zip values).take j)

/-- Each of the pairs has its value when it is built with what the pairs before it make, whatever
is bound. -/
def HaveValues (rounds : Nat) (sofar : List (String × Json)) (pairs : List (String × Node))
    (values : List Json) : Prop :=
  ∀ (j : Nat) (name : String) (node : Node) (value : Json), pairs[j]? = some (name, node) →
    values[j]? = some value → ∀ environment, ((node.meaning rounds).build .root
      (some (membersBefore sofar pairs values j)) environment).map (·.1) = some (.ok value)

/-- At the root a node that is built from some bindings is built to the same from all others. -/
theorem build_of_build {node : Node} {this : This} {result : Except EvalError Json}
    (h : (node.meaning rounds).build .root this environment = some (result, after))
    (other : Environment) :
    ((node.meaning rounds).build .root this other).map (·.1) = some result := by
  rw [node.endsAs_alone rounds this other, ← node.endsAs_alone rounds this environment, h]
  rfl

/-- Members that are built have been built in turn, and so has each front of them. -/
theorem exists_values_of_buildMembers {sofar : List (String × Json)} {json : Json}
    (h : Meaning.buildMembers .root sofar (memberMeanings rounds pairs) environment =
      some (.ok json, after)) :
    ∃ values, values.length = pairs.length ∧ HaveValues rounds sofar pairs values ∧
      ∀ j, ∃ between,
        Meaning.buildMembers .root sofar (memberMeanings rounds (pairs.take j)) environment =
          some (.ok (.object (membersBefore sofar pairs values j)), between) := by
  induction pairs generalizing sofar environment with
  | nil => exact ⟨[], rfl, nofun, fun j => ⟨environment, by cases j <;> rfl⟩⟩
  | cons pair rest ih =>
    obtain ⟨name, node⟩ := pair
    obtain ⟨value, middle, hvalue, hrest⟩ := Run.exists_of_bind h
    obtain ⟨values, hlength, hvalues, hfronts⟩ := ih hrest
    refine ⟨value :: values, congrArg (· + 1) hlength, fun j => ?_, fun j => ?_⟩
    · cases j with
      | zero =>
        rintro _ _ _ ⟨⟩ ⟨⟩
        exact build_of_build hvalue
      | succ j => exact hvalues j
    · cases j with
      | zero => exact ⟨environment, rfl⟩
      | succ j =>
        obtain ⟨between, hbetween⟩ := hfronts j
        exact ⟨between, (Run.bind_of_ok hvalue).trans hbetween⟩

/-- Without members before, the members before a pair are those of the pairs. -/
theorem membersBefore_nil (pairs : List (String × Node)) (values : List Json) (j : Nat) :
    membersBefore [] pairs values j =
      Json.insertMembers [] (((pairs.take j).map (·.1)).zip (values.take j)) := by
  rw [membersBefore, List.map_take, List.zip_eq_zipWith, List.zip_eq_zipWith, List.take_zipWith]

/-- All pairs make what the first of them make with the others inserted after. -/
theorem membersBefore_length (h : values.length = pairs.length) (j : Nat) :
    membersBefore [] pairs values pairs.length =
      Json.insertMembers (membersBefore [] pairs values j)
        (((pairs.drop j).map (·.1)).zip (values.drop j)) := by
  have hlength : ((pairs.map (·.1)).zip values).length ≤ pairs.length := by simp [h]
  have hdrop : ((pairs.drop j).map (·.1)).zip (values.drop j) =
      ((pairs.map (·.1)).zip values).drop j := by
    rw [List.map_drop, List.zip_eq_zipWith, List.zip_eq_zipWith, List.drop_zipWith]
  rw [membersBefore, membersBefore, List.take_of_length_le hlength, ← Json.insertMembers_append,
    hdrop, List.take_append_drop]

end Node

/-- The first pairs of an object literal at the root, which has been built with these values. -/
structure Node.FrontBuilds (rounds : Nat) (pairs : List (String × Node)) (values : List Json)
    (built : List (String × Json)) (this : This) (environment : Environment) (j : Nat)
    (sofar : List (String × Json)) : Prop where
  /-- They are built alone to an object. -/
  builds : ∃ between, ((object (pairs.take j)).meaning rounds).build .root this environment =
    some (.ok (.object sofar), between)
  holds : Json.HoldsLast ((pairs.take j).map (·.1)) (values.take j) sofar
  /-- The pair after them has its value when `this` is bound to that object, whatever else is
  bound. -/
  next : ∀ name node value, pairs[j]? = some (name, node) → values[j]? = some value →
    ∀ other, ((Node.meaning rounds node).build .root (some sofar) other).map (·.1) =
      some (.ok value)
  order : Json.names sofar <+: Json.names built
  /-- A value is changed later only by a pair that repeats its name. -/
  kept : ∀ name, name ∉ (pairs.drop j).map (·.1) → built.lookup name = sofar.lookup name

/-- An object at the root is the fold of its pairs from the first to the last. If it is built, each
pair has a value, the one that it is built to with `this` bound to the object of the pairs before
it; the names stand in the order in which they first occur, each with the value of its last
occurrence. Every front of the pairs is built as well, to an object of the same kind, whose names
are a front of all names; and no value in it is changed later but by a pair that repeats its
name. -/
theorem build_foldsPairs {rounds : Nat} {pairs : List (String × Node)} {this : This}
    {environment after : Environment} {json : Json}
    (h : ((Node.object pairs).meaning rounds).build .root this environment =
      some (.ok json, after)) :
    ∃ values built, json = .object built ∧ values.length = pairs.length ∧
      Json.HoldsLast (pairs.map (·.1)) values built ∧
      ∀ j, ∃ sofar, Node.FrontBuilds rounds pairs values built this environment j sofar := by
  rw [Node.meaning] at h
  obtain ⟨values, hlength, hvalues, hfronts⟩ := Node.exists_values_of_buildMembers h
  have hholds (j : Nat) : Json.HoldsLast ((pairs.take j).map (·.1)) (values.take j)
      (Node.membersBefore [] pairs values j) := by
    rw [Node.membersBefore_nil]
    exact Json.holdsLast_insertMembers (by simp [hlength])
  obtain ⟨last, hwhole⟩ := hfronts pairs.length
  rw [List.take_length] at hwhole
  have hjson : json = .object (Node.membersBefore [] pairs values pairs.length) :=
    Except.ok.inj (congrArg Prod.fst (Option.some.inj (h.symm.trans hwhole)))
  have hall := hholds pairs.length
  rw [List.take_length, List.take_of_length_le hlength.le] at hall
  refine ⟨values, _, hjson, hlength, hall, fun j => ⟨_, ?_, hholds j, hvalues j, ?_, ?_⟩⟩
  · obtain ⟨between, hbetween⟩ := hfronts j
    refine ⟨between, ?_⟩
    rw [Node.meaning]
    exact hbetween
  · rw [Node.membersBefore_length hlength j]
    exact Json.names_prefix_insertMembers _ _
  · intro name hname
    rw [Node.membersBefore_length hlength j]
    refine Json.lookup_insertMembers_of_notMem ?_ _
    rwa [Json.names_zip (by simp [hlength])]

/-- The pairs of `{"a": 1, "b": -> { return this.a; }, "a": "x"}`. -/
def repeatedPairs : List (String × Node) :=
  [("a", .integer 1), ("b", .block [.return_ (.this [.field "a"])]), ("a", .string "x")]

/-- The block has the first value of the name, which keeps its place when it is given another. -/
theorem build_repeatedPairs :
    ((Node.object repeatedPairs).meaning 0).build .root none .empty =
        some (.ok (.object [("a", .string "x"), ("b", .integer 1)]), .empty) ∧
      ∃ values, Json.HoldsLast ["a", "b", "a"] values [("a", .string "x"), ("b", .integer 1)] ∧
        ∃ sofar, Node.FrontBuilds 0 repeatedPairs values [("a", .string "x"), ("b", .integer 1)]
          none .empty 2 sofar := by
  refine ⟨rfl, ?_⟩
  obtain ⟨values, built, hjson, -, hholds, hfronts⟩ :=
    @build_foldsPairs 0 repeatedPairs none .empty .empty
      (.object [("a", .string "x"), ("b", .integer 1)]) rfl
  obtain rfl := Json.object.inj hjson
  exact ⟨values, hholds, hfronts 2⟩

end JsonTemplate
