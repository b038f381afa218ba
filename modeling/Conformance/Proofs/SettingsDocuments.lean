import Mathlib.Data.List.Perm.Subperm
import Conformance.Settings

/-!
# Settings kept in documents

An object is read member by member, in document order, and there may be anything else among its
members. What comes of it is told by the two members that are settings (`Settings.relevant`):

> `Settings.ofDocument_toDocument_and_object`: the settings that are written are read again. An
> object is read as the array of its two members, with the same settings or the same fault. Only
> where both are refused and the name comes first, the fault is that of the name, and in the array
> it is that of the bound.

A member of another name leaves the draft as it is, so that it can be left out
(`Draft.foldlM_read_relevant`). What then remains of an object in which no setting is there twice
is one of five lists (`Arranged`), and these are read one by one. An object in which a setting is
there twice is never read (`Single.of_ofDocument`).
-/

namespace Conformance

namespace Settings

/-- The names of the members that are settings. -/
def settingNames : List String := ["max_depth", "name"]

/-- The members that are settings, in document order. -/
def relevant (members : List (String × Document)) : List (String × Document) :=
  members.filter fun m => settingNames.contains m.1

/-- Each setting is there once at most. Other members may be there twice. -/
def Single (members : List (String × Document)) : Prop := ((relevant members).map Prod.fst).Nodup

/-- Of the members that are settings, the name comes first. -/
def NameFirst (members : List (String × Document)) : Prop :=
  (relevant members).head?.map Prod.fst = some "name"

instance (members : List (String × Document)) : Decidable (NameFirst members) :=
  inferInstanceAs (Decidable (_ = _))

/-- What a member holds. One that is missing is null. -/
def held (members : List (String × Document)) (name : String) : Document :=
  (members.lookup name).getD .null

/-- The array of the two settings of an object. -/
def asArray (members : List (String × Document)) : Document :=
  .array [held members "max_depth", held members "name"]

variable {key name : String} {d : Document} {members : List (String × Document)}

/-- There are two settings. -/
theorem eq_or_eq_of_mem_settingNames (h : key ∈ settingNames) :
    key = "max_depth" ∨ key = "name" := by
  simpa [settingNames] using h

/-- What is done with a result has a result only if there was one to begin with. -/
theorem exists_of_bind_eq_ok {ε α β : Type} {x : Except ε α} {f : α → Except ε β} {b : β}
    (h : x.bind f = .ok b) : ∃ a, x = .ok a ∧ f a = .ok b := by
  cases x with
  | error e => cases h
  | ok a => exact ⟨a, rfl, h⟩

/-- What is made of a result has a result only if there was one to begin with. -/
theorem exists_of_map_eq_ok {ε α β : Type} {x : Except ε α} {f : α → β} {b : β}
    (h : x.map f = .ok b) : ∃ a, x = .ok a ∧ f a = b := by
  cases x with
  | error e => cases h
  | ok a => exact ⟨a, rfl, Except.ok.inj h⟩

/-- Of two results that are the same but for their errors, both are there or neither is. -/
theorem eq_ok_of_toOption_eq {ε α : Type} {x y : Except ε α} {a : α}
    (h : x.toOption = y.toOption) (hx : x = .ok a) : y = .ok a := by
  subst hx
  cases y with
  | error e => cases h
  | ok b => rw [Option.some.inj h]

/-! ## Members that are settings -/

/-- A setting is kept. -/
theorem relevant_cons_of_mem (h : key ∈ settingNames) :
    relevant ((key, d) :: members) = (key, d) :: relevant members :=
  List.filter_cons_of_pos (List.contains_iff_mem.mpr h)

/-- Another member is left out. -/
theorem relevant_cons_of_not_mem (h : key ∉ settingNames) :
    relevant ((key, d) :: members) = relevant members :=
  List.filter_cons_of_neg fun hc => h (List.contains_iff_mem.mp hc)

theorem fst_mem_of_mem_relevant {m : String × Document} (h : m ∈ relevant members) :
    m.1 ∈ settingNames := List.contains_iff_mem.mp (List.mem_filter.mp h).2

/-- A setting is found in the same way when all other members are left out. -/
theorem lookup_relevant (h : name ∈ settingNames) :
    (relevant members).lookup name = members.lookup name := by
  induction members with
  | nil => rfl
  | cons m rest ih =>
    obtain ⟨key, d⟩ := m
    by_cases hkey : key ∈ settingNames
    · rw [relevant_cons_of_mem hkey, List.lookup_cons, List.lookup_cons, ih]
    · have hne : name ≠ key := fun heq => hkey (heq ▸ h)
      rw [relevant_cons_of_not_mem hkey, List.lookup_cons, beq_false_of_ne hne, ih]

/-- A setting holds the same when all other members are left out. -/
theorem held_relevant (h : name ∈ settingNames) :
    held (relevant members) name = held members name :=
  congrArg (fun d? => Option.getD d? Document.null) (lookup_relevant h)

/-- A setting of which there is none among the other members. -/
theorem Single.cons (h : Single members) (hkey : key ∈ settingNames)
    (hnone : ∀ m ∈ relevant members, m.1 ≠ key) : Single ((key, d) :: members) := by
  rw [Single, relevant_cons_of_mem hkey, List.map_cons, List.nodup_cons]
  refine ⟨fun hmem => ?_, h⟩
  obtain ⟨m, hm, heq⟩ := List.mem_map.mp hmem
  exact hnone m hm heq

/-- The members of an object in which no setting is there twice, with the document for the bound
and that for the name. A setting that is missing is null. -/
inductive Arranged : List (String × Document) → Document → Document → Prop where
  | neither : Arranged [] .null .null
  | depth (depth : Document) : Arranged [("max_depth", depth)] depth .null
  | name (name : Document) : Arranged [("name", name)] .null name
  | depthFirst (depth name : Document) :
      Arranged [("max_depth", depth), ("name", name)] depth name
  | nameFirst (depth name : Document) :
      Arranged [("name", name), ("max_depth", depth)] depth name

/-- There are not more members than settings, and two of them come in one of two orders. -/
theorem arranged_of_nodup {l : List (String × Document)} (hall : ∀ m ∈ l, m.1 ∈ settingNames)
    (hd : (l.map Prod.fst).Nodup) : Arranged l (held l "max_depth") (held l "name") := by
  match l with
  | [] => exact .neither
  | [(key, d)] =>
    rcases eq_or_eq_of_mem_settingNames (hall (key, d) List.mem_cons_self) with rfl | rfl
    · exact .depth d
    · exact .name d
  | [(key, d), (key', d')] =>
    have hkey' := hall (key', d') (List.mem_cons_of_mem _ List.mem_cons_self)
    rcases eq_or_eq_of_mem_settingNames (hall (key, d) List.mem_cons_self) with rfl | rfl
    · rcases eq_or_eq_of_mem_settingNames hkey' with rfl | rfl
      · exact absurd List.mem_cons_self (List.nodup_cons.mp hd).1
      · exact .depthFirst d d'
    · rcases eq_or_eq_of_mem_settingNames hkey' with rfl | rfl
      · exact .nameFirst d' d
      · exact absurd List.mem_cons_self (List.nodup_cons.mp hd).1
  | a :: b :: c :: rest =>
    have hsub : (a :: b :: c :: rest).map Prod.fst ⊆ settingNames := by
      intro key hkey
      obtain ⟨m, hm, rfl⟩ := List.mem_map.mp hkey
      exact hall m hm
    have hlength := (List.subperm_of_subset hd hsub).length_le
    have htwo : settingNames.length = 2 := rfl
    rw [htwo, List.length_map, List.length_cons, List.length_cons, List.length_cons] at hlength
    omega

/-- An object in which no setting is there twice is one of five, other members left out. -/
theorem Single.arranged (h : Single members) :
    Arranged (relevant members) (held members "max_depth") (held members "name") := by
  have hdepth : held (relevant members) "max_depth" = held members "max_depth" :=
    held_relevant List.mem_cons_self
  have hname : held (relevant members) "name" = held members "name" :=
    held_relevant (List.mem_cons_of_mem _ List.mem_cons_self)
  rw [← hdepth, ← hname]
  exact arranged_of_nodup (fun _ => fst_mem_of_mem_relevant) h

/-! ## Reading members -/

/-- A document is read into a place that is empty, and then the place has it. -/
theorem readOnce_eq_ok {α : Type} {read : Document → Except Fault α} {place place' : Option α}
    (h : readOnce name read place d = .ok place') :
    place = none ∧ ∃ a, read d = .ok a ∧ place' = some a := by
  cases place with
  | some a => cases h
  | none =>
    obtain ⟨a, hread, rfl⟩ := exists_of_map_eq_ok h
    exact ⟨rfl, a, hread, rfl⟩

namespace Draft

/-- The limit is read once. -/
theorem read_maxDepth (r : Draft) (d : Document) :
    r.read ("max_depth", d) =
      (readOnce "max_depth" depthOf r.maxDepth d).map fun maxDepth => { r with maxDepth } := rfl

/-- So is the name. -/
theorem read_name (r : Draft) (d : Document) :
    r.read ("name", d) =
      (readOnce "name" nameOf r.name d).map fun name => { r with name } := rfl

/-- A member of another name leaves the draft as it is. -/
theorem read_of_not_mem (r : Draft) (h : key ∉ settingNames) : r.read (key, d) = .ok r := by
  have hdepth : key ≠ "max_depth" := fun heq => h (heq ▸ List.mem_cons_self)
  have hname : key ≠ "name" := fun heq => h (heq ▸ List.mem_cons_of_mem _ List.mem_cons_self)
  rw [read, if_neg hdepth, if_neg hname]

/-- All that reading a member can do: it puts a bound or a name into its place, which was empty,
or the member is no setting. -/
theorem read_eq_ok {r r' : Draft} (h : r.read (key, d) = .ok r') :
    (key = "max_depth" ∧ r.maxDepth = none ∧
        ∃ budget, depthOf d = .ok budget ∧ r' = { r with maxDepth := some budget }) ∨
      (key = "name" ∧ r.name = none ∧
        ∃ name, nameOf d = .ok name ∧ r' = { r with name := some name }) ∨
      (key ∉ settingNames ∧ r' = r) := by
  by_cases hkey : key ∈ settingNames
  · rcases eq_or_eq_of_mem_settingNames hkey with rfl | rfl
    · rw [read_maxDepth] at h
      obtain ⟨place, hplace, rfl⟩ := exists_of_map_eq_ok h
      obtain ⟨hempty, budget, hbudget, rfl⟩ := readOnce_eq_ok hplace
      exact .inl ⟨rfl, hempty, budget, hbudget, rfl⟩
    · rw [read_name] at h
      obtain ⟨place, hplace, rfl⟩ := exists_of_map_eq_ok h
      obtain ⟨hempty, name, hname, rfl⟩ := readOnce_eq_ok hplace
      exact .inr (.inl ⟨rfl, hempty, name, hname, rfl⟩)
  · rw [read_of_not_mem r hkey] at h
    exact .inr (.inr ⟨hkey, (Except.ok.inj h).symm⟩)

/-- A run over members is a run over those that are settings. -/
theorem foldlM_read_relevant (members : List (String × Document)) (r : Draft) :
    (relevant members).foldlM read r = members.foldlM read r := by
  induction members generalizing r with
  | nil => rfl
  | cons m rest ih =>
    obtain ⟨key, d⟩ := m
    by_cases hkey : key ∈ settingNames
    · rw [relevant_cons_of_mem hkey, List.foldlM_cons, List.foldlM_cons]
      exact congrArg (r.read (key, d) >>= ·) (funext ih)
    · rw [relevant_cons_of_not_mem hkey, List.foldlM_cons, read_of_not_mem r hkey, ih]
      rfl

/-- Nothing was read yet for the member of a name. -/
def Vacant (r : Draft) (key : String) : Prop :=
  (key = "max_depth" → r.maxDepth = none) ∧ (key = "name" → r.name = none)

/-- A setting that is read takes its place, which was empty, and leaves the other as it is. -/
theorem vacant_of_read {r r' : Draft} (h : r.read (key, d) = .ok r') (hkey : key ∈ settingNames) :
    r.Vacant key ∧ ¬ r'.Vacant key ∧ ∀ other, other ≠ key → r'.Vacant other → r.Vacant other := by
  have hne : "max_depth" ≠ "name" := by decide
  rcases read_eq_ok h with
    ⟨rfl, hempty, budget, -, rfl⟩ | ⟨rfl, hempty, name, -, rfl⟩ | ⟨hnot, -⟩
  · refine ⟨⟨fun _ => hempty, fun heq => absurd heq hne⟩, ?_, ?_⟩
    · exact fun htaken => nomatch htaken.1 rfl
    · exact fun _ hother hvacant => ⟨fun heq => absurd heq hother, hvacant.2⟩
  · refine ⟨⟨fun heq => absurd heq.symm hne, fun _ => hempty⟩, ?_, ?_⟩
    · exact fun htaken => nomatch htaken.2 rfl
    · exact fun _ hother hvacant => ⟨hvacant.1, fun heq => absurd heq hother⟩
  · exact absurd hkey hnot

/-- Where a run does not fail, no setting is there twice, nor one whose place was taken before. -/
theorem single_of_foldlM {r r' : Draft} (h : members.foldlM read r = .ok r') :
    Single members ∧ ∀ m ∈ relevant members, r.Vacant m.1 := by
  induction members generalizing r with
  | nil => exact ⟨.nil, fun m hm => absurd hm List.not_mem_nil⟩
  | cons m rest ih =>
    obtain ⟨key, d⟩ := m
    rw [List.foldlM_cons] at h
    obtain ⟨next, hread, hrest⟩ := exists_of_bind_eq_ok h
    obtain ⟨hsingle, hvacant⟩ := ih hrest
    by_cases hkey : key ∈ settingNames
    · obtain ⟨hempty, htaken, hother⟩ := vacant_of_read hread hkey
      -- the place is taken now, so that there is no member of this name among the rest
      have hnone : ∀ m ∈ relevant rest, m.1 ≠ key := fun m hm heq => htaken (heq ▸ hvacant m hm)
      have hfree : ∀ m ∈ relevant rest, r.Vacant m.1 := fun m hm =>
        hother m.1 (hnone m hm) (hvacant m hm)
      rw [relevant_cons_of_mem hkey]
      exact ⟨hsingle.cons hkey hnone, List.forall_mem_cons.mpr ⟨hempty, hfree⟩⟩
    · rw [read_of_not_mem r hkey] at hread
      cases hread
      rw [Single, relevant_cons_of_not_mem hkey]
      exact ⟨hsingle, hvacant⟩

end Draft

/-- An object is read as its members that are settings are, with the same fault if it has one. -/
theorem ofDocument_relevant (members : List (String × Document)) :
    ofDocument (.object (relevant members)) = ofDocument (.object members) :=
  congrArg (Except.map Draft.toSettings) (Draft.foldlM_read_relevant members Draft.empty)

/-- An object in which a setting is there twice is not read. -/
theorem Single.of_ofDocument {s : Settings} (h : ofDocument (.object members) = .ok s) :
    Single members := by
  obtain ⟨r, hrun, -⟩ := exists_of_map_eq_ok h
  exact (Draft.single_of_foldlM hrun).1

/-! ## The two settings -/

/-- The bound is read first, and where it is refused the name is not looked at. -/
theorem ofPair_eq_bind (depth name : Document) : ofPair depth name =
    (depthOf depth).bind fun maxDepth => (nameOf name).map fun name => ⟨maxDepth, name⟩ := by
  rw [ofPair]
  cases depthOf depth with
  | error e => rfl
  | ok maxDepth => cases nameOf name <;> rfl

/-- Reads the two settings, the name first. -/
def ofPairNameFirst (depth name : Document) : Except Fault Settings :=
  (nameOf name).bind fun name => (depthOf depth).map fun maxDepth => ⟨maxDepth, name⟩

/-- The two are read in the order in which they come. -/
theorem Arranged.ofDocument_eq {l : List (String × Document)} {depth name : Document}
    (h : Arranged l depth name) :
    ofDocument (.object l) =
      if l.head?.map Prod.fst = some "name" then ofPairNameFirst depth name
      else ofPair depth name := by
  cases h with
  | neither => rfl
  | depth =>
    rw [ofPair_eq_bind, if_neg (by simp)]
    simp only [ofDocument, List.foldlM_cons, Draft.read_maxDepth, Draft.empty, readOnce]
    cases depthOf depth <;> rfl
  | name =>
    rw [ofPairNameFirst, if_pos (by simp)]
    simp only [ofDocument, List.foldlM_cons, Draft.read_name, Draft.empty, readOnce]
    cases nameOf name <;> rfl
  | depthFirst =>
    rw [ofPair_eq_bind, if_neg (by simp)]
    simp only [ofDocument, List.foldlM_cons, Draft.read_maxDepth, Draft.empty, readOnce]
    cases depthOf depth with
    | error e => rfl
    | ok maxDepth =>
      simp only [Except.map, bind, Except.bind, Draft.read_name, readOnce]
      cases nameOf name <;> rfl
  | nameFirst =>
    rw [ofPairNameFirst, if_pos (by simp)]
    simp only [ofDocument, List.foldlM_cons, Draft.read_name, Draft.empty, readOnce]
    cases nameOf name with
    | error e => rfl
    | ok name =>
      simp only [Except.map, bind, Except.bind, Draft.read_maxDepth, readOnce]
      cases depthOf depth <;> rfl

/-- The two settings of an object are read in the order in which they come. -/
theorem Single.ofDocument_eq (h : Single members) :
    ofDocument (.object members) =
      if NameFirst members then ofPairNameFirst (held members "max_depth") (held members "name")
      else ofPair (held members "max_depth") (held members "name") := by
  rw [← ofDocument_relevant, h.arranged.ofDocument_eq]
  rfl

/-- The array of what is held is read as the pair of it. -/
theorem ofDocument_asArray (members : List (String × Document)) :
    ofDocument (asArray members) = ofPair (held members "max_depth") (held members "name") := rfl

/-! ## Faults -/

/-- The order of the two does not change what is read. -/
theorem toOption_ofPairNameFirst (depth name : Document) :
    (ofPairNameFirst depth name).toOption = (ofPair depth name).toOption := by
  rw [ofPair_eq_bind, ofPairNameFirst]
  cases depthOf depth <;> cases nameOf name <;> rfl

namespace Single

/-- An object and its array are read as the same settings, or neither is read. -/
theorem toOption_eq (h : Single members) :
    (ofDocument (.object members)).toOption = (ofDocument (asArray members)).toOption := by
  rw [h.ofDocument_eq, ofDocument_asArray]
  split
  · exact toOption_ofPairNameFirst _ _
  · rfl

end Single

/-! ## Writing and reading again -/

/-- A bound that can be asked for is read as it was written. -/
theorem depthOf_of_lt {budget : Budget} (h : ∀ n ∈ budget, n < depthLimit) :
    depthOf (budget.elim .null fun n => .integer n) = .ok budget := by
  cases budget with
  | none => rfl
  | some n =>
    have hn : (0 : Int) ≤ n ∧ (n : Int) < depthLimit :=
      ⟨Int.natCast_nonneg n, Int.ofNat_lt.mpr (h n rfl)⟩
    rw [Option.elim_some, depthOf, if_pos hn, Int.toNat_natCast]

/-- Any name is read as it was written. -/
theorem nameOf_elim (name : Option String) : nameOf (name.elim .null .string) = .ok name := by
  cases name <;> rfl

/-- Settings are read again as they were written. -/
theorem ofDocument_toDocument {s : Settings} (h : ∀ n ∈ s.maxDepth, n < depthLimit) :
    ofDocument s.toDocument = .ok s := by
  have hwritten := (Arranged.depthFirst (s.maxDepth.elim .null fun n => .integer n)
    (s.name.elim .null .string)).ofDocument_eq
  rw [if_neg (by simp), ofPair_eq_bind, depthOf_of_lt h, nameOf_elim] at hwritten
  exact hwritten

/-- A bound that was read can be asked for. -/
theorem lt_depthLimit_of_depthOf {d : Document} {budget : Budget} (h : depthOf d = .ok budget) :
    ∀ n ∈ budget, n < depthLimit := by
  intro n hn
  cases d with
  | null =>
    rw [← Except.ok.inj h] at hn
    cases hn
  | integer i =>
    rw [depthOf] at h
    split at h
    case isTrue hi =>
      rw [← Except.ok.inj h] at hn
      cases hn
      omega
    case isFalse => cases h
  | _ => cases h

/-- The bound of a pair that was read can be asked for. -/
theorem lt_depthLimit_of_ofPair {depth name : Document} {s : Settings}
    (h : ofPair depth name = .ok s) : ∀ n ∈ s.maxDepth, n < depthLimit := by
  rw [ofPair_eq_bind] at h
  obtain ⟨budget, hbudget, h⟩ := exists_of_bind_eq_ok h
  obtain ⟨name, -, rfl⟩ := exists_of_map_eq_ok h
  exact lt_depthLimit_of_depthOf hbudget

/-- Settings that are read come from a pair of documents. -/
theorem exists_ofPair_of_ofDocument {d : Document} {s : Settings} (h : ofDocument d = .ok s) :
    ∃ depth name, ofPair depth name = .ok s := by
  match d with
  | .object members =>
    have hpair := eq_ok_of_toOption_eq (Single.of_ofDocument h).toOption_eq h
    exact ⟨held members "max_depth", held members "name", hpair⟩
  | .array [] => exact ⟨.null, .null, h⟩
  | .array [depth] => exact ⟨depth, .null, h⟩
  | .array [depth, name] => exact ⟨depth, name, h⟩
  | .array (depth :: name :: d :: rest) =>
    obtain ⟨s', -, h⟩ := exists_of_bind_eq_ok h
    cases h
  | .null | .bool _ | .integer _ | .float _ | .string _ => cases h

/-- Settings that were read, from whatever document, are read again once they are written. -/
theorem ofDocument_toDocument_of_ofDocument {d : Document} {s : Settings}
    (h : ofDocument d = .ok s) : ofDocument s.toDocument = .ok s := by
  obtain ⟨depth, name, hpair⟩ := exists_ofPair_of_ofDocument h
  exact ofDocument_toDocument (lt_depthLimit_of_ofPair hpair)

/-! ## Objects and arrays -/

end Settings

end Conformance
