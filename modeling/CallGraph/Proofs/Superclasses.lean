import CallGraph.Proofs.Chains
import CallGraph.Proofs.Sweep

/-!
# The search for a method

A message to an interface runs the method of the nearest superclass that has one. Superclasses may run
in circles, and then an interface has superclasses any number of steps away (`ancestor?`), while the
search enters each of them once. Nothing is lost by that: what is entered are the superclasses in
order, from the interface itself (`ancestor?_of_getElem?`), and whatever lies further up is one of
them. So the search finds a method exactly if there is a nearest one (`lookup?_eq_some_iff`), and
nearness does not depend on where a circle is entered.
-/

namespace CallGraph

/-- What a declaration has for a selector: for messages to instances in the one table, for messages to
itself in the other. -/
def Decl.entry? (d : Decl) (selector : String) : Bool → Option DeclId
  | true => d.instanceMethods.get? selector
  | false => d.classMethods.get? selector

namespace SourceUnit

/-- One interface names the other as its superclass. -/
def Inherits (u : SourceUnit) (a b : DeclId) : Prop :=
  ∃ d, u.decl? a = some d ∧ d.superclass = some b

/-- The superclass that lies a number of steps up; the interface itself lies no step up. -/
def ancestor? (u : SourceUnit) (interface : DeclId) : Nat → Option DeclId
  | 0 => some interface
  | k + 1 => (u.ancestor? interface k).bind fun id => (u.decl? id).bind Decl.superclass

/-- A number of steps up there is an interface, and this is its entry for the selector. -/
def EntryAt (u : SourceUnit) (interface : DeclId) (selector : String) (toInstance : Bool) (k : Nat)
    (entry : Option DeclId) : Prop :=
  ∃ id d, u.ancestor? interface k = some id ∧ u.decl? id = some d
    ∧ d.entry? selector toInstance = entry

/-- The interface a number of steps up has the method for the selector, and all before it are there and
have none. -/
structure IsNearest (u : SourceUnit) (interface : DeclId) (selector : String) (toInstance : Bool)
    (k : Nat) (method : DeclId) : Prop where
  found : u.EntryAt interface selector toInstance k (some method)
  before : ∀ j, j < k → u.EntryAt interface selector toInstance j none

variable {u : SourceUnit}

/-! ## Superclasses -/

theorem link_superclass_iff {a b : DeclId} : u.superclassLinks.Link a b ↔ u.Inherits a b := by
  rw [superclassLinks, link_links_iff]
  simp [Inherits]

theorem single_superclassLinks (u : SourceUnit) : u.superclassLinks.Single := by
  intro a
  simp only [superclassLinks, links]
  cases u.decl? a with
  | none => simp
  | some d => cases d.superclass <;> simp [*]

theorem ancestor?_succ_eq_some_iff {interface b : DeclId} {k : Nat} :
    u.ancestor? interface (k + 1) = some b
      ↔ ∃ a, u.ancestor? interface k = some a ∧ u.Inherits a b := by
  simp [ancestor?, Option.bind_eq_some_iff, Inherits]

/-- From the superclass on there is one step less to go. -/
theorem ancestor?_succ_of_inherits {interface superclass : DeclId}
    (h : u.Inherits interface superclass) (k : Nat) :
    u.ancestor? interface (k + 1) = u.ancestor? superclass k := by
  induction k with
  | zero =>
      obtain ⟨d, hd, hsuper⟩ := h
      simp [ancestor?, hd, hsuper]
  | succ k ih => rw [ancestor?, ih, ancestor?]

theorem reaches_ancestor? {interface id : DeclId} {k : Nat} (h : u.ancestor? interface k = some id) :
    u.superclassLinks.Reaches interface id := by
  induction k generalizing id with
  | zero =>
      obtain rfl := Option.some.inj h
      exact Relation.ReflTransGen.refl
  | succ k ih =>
      obtain ⟨a, ha, hlink⟩ := ancestor?_succ_eq_some_iff.mp h
      exact (ih ha).tail (link_superclass_iff.mpr hlink)

/-- The search enters the superclasses in order. -/
theorem ancestor?_of_getElem? {interface id : DeclId} {k : Nat}
    (h : (u.superclassLinks.preorder [interface])[k]? = some id) :
    u.ancestor? interface k = some id := by
  induction k generalizing id with
  | zero =>
      obtain ⟨rest, hrest⟩ := u.superclassLinks.preorder_eq_cons interface
      rw [hrest] at h
      exact h
  | succ k ih =>
      obtain ⟨hlt, rfl⟩ := List.getElem?_eq_some_iff.mp h
      have hlink := List.isChain_iff_getElem.mp
        (u.single_superclassLinks.isChain_preorder interface) k hlt
      have hk := ih (List.getElem?_eq_getElem (Nat.lt_of_succ_lt hlt))
      exact ancestor?_succ_eq_some_iff.mpr ⟨_, hk, link_superclass_iff.mp hlink⟩

/-! ## The nearest method -/

theorem get?_methods (d : Decl) (selector : String) (toInstance : Bool) :
    (methods d toInstance).get? selector = d.entry? selector toInstance := by
  cases toInstance <;> rfl

theorem lookup?_eq_findSome? (u : SourceUnit) (interface : DeclId) (selector : String)
    (toInstance : Bool) :
    u.lookup? interface selector toInstance = (u.superclassLinks.preorder [interface]).findSome?
      fun id => (u.decl? id).bind fun d => d.entry? selector toInstance := by
  simp only [lookup?, get?_methods]

section

variable {interface : DeclId} {selector : String} {toInstance : Bool} {k l : Nat} {method : DeclId}

theorem EntryAt.unique {entry entry' : Option DeclId}
    (h : u.EntryAt interface selector toInstance k entry)
    (h' : u.EntryAt interface selector toInstance k entry') : entry = entry' := by
  obtain ⟨id, d, hid, hd, hentry⟩ := h
  obtain ⟨id', d', hid', hd', hentry'⟩ := h'
  obtain rfl : id = id' := Option.some.inj (hid.symm.trans hid')
  obtain rfl : d = d' := Option.some.inj (hd.symm.trans hd')
  exact hentry.symm.trans hentry'

theorem IsNearest.not_lt {method' : DeclId}
    (h : u.IsNearest interface selector toInstance k method)
    (h' : u.IsNearest interface selector toInstance l method') : ¬ k < l :=
  fun hlt => Option.some_ne_none method (h.found.unique (h'.before k hlt))

theorem IsNearest.unique {method' : DeclId}
    (h : u.IsNearest interface selector toInstance k method)
    (h' : u.IsNearest interface selector toInstance l method') : method = method' := by
  obtain rfl : k = l :=
    Nat.le_antisymm (Nat.le_of_not_lt (h'.not_lt h)) (Nat.le_of_not_lt (h.not_lt h'))
  exact Option.some.inj (h.found.unique h'.found)

/-- What the search finds is a nearest method. -/
theorem exists_isNearest_of_lookup? (h : u.lookup? interface selector toInstance = some method) :
    ∃ k, u.IsNearest interface selector toInstance k method := by
  rw [lookup?_eq_findSome?] at h
  obtain ⟨before, id, after, hsplit, hfound, hnone⟩ := List.findSome?_eq_some_iff.mp h
  have hancestor : ∀ j x, (before ++ id :: after)[j]? = some x → u.ancestor? interface j = some x :=
    fun j x hx => ancestor?_of_getElem? (hsplit ▸ hx)
  refine ⟨before.length, ?_, fun j hj => ?_⟩
  · obtain ⟨d, hd, hmethod⟩ := Option.bind_eq_some_iff.mp hfound
    exact ⟨id, d, hancestor _ id (by simp), hd, hmethod⟩
  · -- Another interface is entered after this one, so it is there.
    have hnext : j + 1 < (before ++ id :: after).length := by simp; omega
    obtain ⟨a, ha, d, hd, -⟩ :=
      ancestor?_succ_eq_some_iff.mp (hancestor _ _ (List.getElem?_eq_getElem hnext))
    have hmem : a ∈ before := by
      have hj' := hancestor j before[j]
        (by rw [List.getElem?_append_left hj, List.getElem?_eq_getElem hj])
      obtain rfl : a = before[j] := Option.some.inj (ha.symm.trans hj')
      exact List.getElem_mem hj
    have hentry := hnone a hmem
    rw [hd] at hentry
    exact ⟨a, d, ha, hd, hentry⟩

/-- A superclass that has a method is entered, so the search finds one. -/
theorem exists_lookup?_of_entryAt (h : u.EntryAt interface selector toInstance k (some method)) :
    ∃ found, u.lookup? interface selector toInstance = some found := by
  obtain ⟨id, d, hid, hd, hmethod⟩ := h
  have hmem : id ∈ u.superclassLinks.preorder [interface] :=
    (Links.mem_preorder_singleton_iff _).mpr (reaches_ancestor? hid)
  rw [← Option.isSome_iff_exists, lookup?_eq_findSome?, List.findSome?_isSome_iff]
  exact ⟨id, hmem, by simp [hd, hmethod]⟩

theorem lookup?_eq_some_iff :
    u.lookup? interface selector toInstance = some method
      ↔ ∃ k, u.IsNearest interface selector toInstance k method := by
  refine ⟨exists_isNearest_of_lookup?, ?_⟩
  rintro ⟨k, hk⟩
  obtain ⟨found, hfound⟩ := exists_lookup?_of_entryAt hk.found
  obtain ⟨l, hl⟩ := exists_isNearest_of_lookup? hfound
  rw [hfound, hk.unique hl]

/-! ## One step up -/

variable {superclass : DeclId}

theorem entryAt_succ_iff (h : u.Inherits interface superclass) {entry : Option DeclId} :
    u.EntryAt interface selector toInstance (k + 1) entry
      ↔ u.EntryAt superclass selector toInstance k entry := by
  rw [EntryAt, EntryAt, ancestor?_succ_of_inherits h]

/-- A method is nearest from an interface that has none exactly if it is nearest from its superclass. -/
theorem isNearest_succ_iff (h : u.Inherits interface superclass)
    (hnone : u.EntryAt interface selector toInstance 0 none) :
    u.IsNearest interface selector toInstance (k + 1) method
      ↔ u.IsNearest superclass selector toInstance k method := by
  constructor
  · rintro ⟨hfound, hbefore⟩
    refine ⟨(entryAt_succ_iff h).mp hfound, fun j hj => ?_⟩
    exact (entryAt_succ_iff h).mp (hbefore (j + 1) (Nat.succ_lt_succ hj))
  · rintro ⟨hfound, hbefore⟩
    refine ⟨(entryAt_succ_iff h).mpr hfound, fun j hj => ?_⟩
    cases j with
    | zero => exact hnone
    | succ j => exact (entryAt_succ_iff h).mpr (hbefore j (Nat.lt_of_succ_lt_succ hj))

/-- An interface that has no method leaves the answer to its superclass, on a circle too. -/
theorem lookup?_eq_of_inherits (h : u.Inherits interface superclass)
    (hnone : u.EntryAt interface selector toInstance 0 none) :
    u.lookup? interface selector toInstance = u.lookup? superclass selector toInstance := by
  refine Option.ext fun m => ?_
  rw [lookup?_eq_some_iff, lookup?_eq_some_iff]
  constructor
  · rintro ⟨k, hk⟩
    cases k with
    | zero => exact absurd (hk.found.unique hnone) (Option.some_ne_none m)
    | succ k => exact ⟨k, (isNearest_succ_iff h hnone).mp hk⟩
  · rintro ⟨k, hk⟩
    exact ⟨k + 1, (isNearest_succ_iff h hnone).mpr hk⟩

end

/-- **A message leads to the nearest method.** The search from an interface enters each superclass once,
however they are linked. It finds a method exactly if some number of steps up there is an interface
that has it, with all interfaces before that there and without one, and otherwise nothing. So an
interface without the method has the answer of its superclass, also where both lie on a circle. -/
theorem lookup?_finds_nearest (u : SourceUnit) (selector : String) (toInstance : Bool) :
    (∀ interface, ∃ rest, u.superclassLinks.preorder [interface] = interface :: rest
      ∧ (interface :: rest).IsChain u.Inherits ∧ (interface :: rest).Nodup
      ∧ rest.length ≤ u.decls.size)
    ∧ (∀ interface method, u.lookup? interface selector toInstance = some method
      ↔ ∃ k, u.IsNearest interface selector toInstance k method)
    ∧ (∀ interface, u.lookup? interface selector toInstance = none
      ↔ ∀ k method, ¬ u.IsNearest interface selector toInstance k method)
    ∧ ∀ interface superclass d, u.decl? interface = some d →
      d.entry? selector toInstance = none → d.superclass = some superclass →
      u.lookup? interface selector toInstance = u.lookup? superclass selector toInstance := by
  refine ⟨fun interface => ?_, fun _ _ => lookup?_eq_some_iff, fun interface => ?_, ?_⟩
  · obtain ⟨rest, hrest, hchain, hnodup, hlength⟩ :=
      u.single_superclassLinks.exists_preorder_eq interface
    refine ⟨rest, hrest, hchain.imp fun a b => link_superclass_iff.mp, hnodup, ?_⟩
    simpa [superclassLinks, links, ids] using hlength
  · rw [Option.eq_none_iff_forall_ne_some, forall_comm]
    simp only [ne_eq, lookup?_eq_some_iff, not_exists]
  · intro interface superclass d hd hnone hsuper
    exact lookup?_eq_of_inherits ⟨d, hd, hsuper⟩ ⟨interface, d, rfl, hd, hnone⟩

/-- Two interfaces that name each other as superclass. The first one has a method for messages to
itself, the second one has one for messages to instances. -/
def circular : SourceUnit where
  name := "circular.m"
  decls := #[
    { Decl.ofName .interface "A" with
      id := 0, superclass := some 1, classMethods := MethodTable.empty.insert "make" 3 },
    { Decl.ofName .interface "B" with
      id := 1, superclass := some 0, instanceMethods := MethodTable.empty.insert "run" 2 },
    { Decl.ofName .objCMethod "run" with id := 2 },
    { Decl.ofName .objCMethod "make" with id := 3 }]
  topLevel := [0, 1]

/-- The method for instances is found from both interfaces, and none for the interfaces themselves. The
other one is found for the interfaces. -/
theorem lookup?_circular :
    circular.IsNearest 0 "run" true 1 2
    ∧ circular.lookup? 0 "run" true = some 2
    ∧ circular.lookup? 1 "run" true = some 2
    ∧ circular.lookup? 0 "run" false = none
    ∧ circular.lookup? 1 "run" false = none
    ∧ circular.IsNearest 1 "make" false 1 3
    ∧ circular.lookup? 1 "make" false = some 3 := by
  obtain ⟨-, hinstance, -, hup⟩ := lookup?_finds_nearest circular "run" true
  obtain ⟨-, -, -, hclass⟩ := lookup?_finds_nearest circular "run" false
  obtain ⟨-, hmake, -, -⟩ := lookup?_finds_nearest circular "make" false
  have hnearest : circular.IsNearest 0 "run" true 1 2 := by
    refine ⟨⟨1, _, rfl, rfl, by decide⟩, fun j hj => ?_⟩
    obtain rfl : j = 0 := Nat.lt_one_iff.mp hj
    exact ⟨0, _, rfl, rfl, by decide⟩
  have hfound := (hinstance 0 2).mpr ⟨1, hnearest⟩
  have hother : circular.IsNearest 1 "make" false 1 3 := by
    refine ⟨⟨0, _, rfl, rfl, by decide⟩, fun j hj => ?_⟩
    obtain rfl : j = 0 := Nat.lt_one_iff.mp hj
    exact ⟨1, _, rfl, rfl, by decide⟩
  have hwalk : circular.superclassLinks.preorder [0] = [0, 1] := by cbv
  have hnone : circular.lookup? 0 "run" false = none := by
    rw [lookup?, hwalk]
    decide
  refine ⟨hnearest, hfound, ?_, hnone, ?_, hother, (hmake 1 3).mpr ⟨1, hother⟩⟩
  · rw [← hup 0 1 _ rfl (by decide) rfl, hfound]
  · rw [← hclass 0 1 _ rfl (by decide) rfl, hnone]

end SourceUnit

end CallGraph
