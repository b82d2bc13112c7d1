import CallGraph.Proofs.Tokens
import Mathlib.Data.List.Forall2

/-!
# Texts inside a text

A text that can be read denotes the same value when it stands inside a larger one, as an item of an
array. Nothing is known of how it was written, so this is not about printing: the two readers, the one
of the text alone and the one that has come to it inside an array, are run side by side.

They do the same as long as the token under way does not depend on what follows it and no container
closes that is too deep in the one and not in the other. A token that is not complete becomes a fault
and faults stay (`Reader.Goes.clean`), so a text that is read without one has only whole tokens, which
are the same with something behind them (`nextToken?_append`). How deep a reader has come never
decreases (`Reader.Goes.depth_le`), so the depth of the value in the end bounds that of all containers
on the way. Both follow from one list of all that a token can do (`Reader.goes_step`).
-/

namespace CallGraph.Json

/-! ## Values without fault -/

theorem fault?_nested {stack : List Frame} {v : Json} (h : (nested stack v).fault? = none) :
    v.fault? = none := by
  unfold nested at h
  split at h
  · exact h
  · cases h

theorem Items.fault?_ofList {tail : Items} {vs : List Json} :
    (ofList tail vs).fault? = none ↔ tail.fault? = none ∧ ∀ v ∈ vs, v.fault? = none := by
  induction vs with
  | nil => simp [ofList]
  | cons v vs ih =>
      rw [ofList, Items.fault?]
      cases hv : v.fault? with
      | some f => simp [hv]
      | none => simp [hv, ih]

/-- The member can be read. -/
def ReadableMember (m : Except Fault String × Json) : Prop :=
  (∃ s, m.1 = .ok s) ∧ m.2.fault? = none

theorem Members.fault?_ofList {tail : Members} {ms : List (Except Fault String × Json)} :
    (ofList tail ms).fault? = none ↔ tail.fault? = none ∧ ∀ m ∈ ms, ReadableMember m := by
  induction ms with
  | nil => simp [ofList]
  | cons m ms ih =>
      obtain ⟨key, v⟩ := m
      rw [ofList]
      cases key with
      | error f => simp [Members.fault?, ReadableMember]
      | ok s =>
          rw [Members.fault?]
          cases hv : v.fault? with
          | some f => simp [hv, ReadableMember]
          | none => simp [hv, ih, ReadableMember]

theorem fault?_closeArr {before : List Json} {tail : Items} {stack : List Frame}
    (h : (closeArr before tail stack).fault? = none) :
    tail.fault? = none ∧ ∀ v ∈ before, v.fault? = none := by
  obtain ⟨htail, hbefore⟩ := Items.fault?_ofList.mp (fault?_nested h)
  exact ⟨htail, fun v hv => hbefore v (List.mem_reverse.mpr hv)⟩

theorem fault?_closeObj {before : List (Except Fault String × Json)} {tail : Members}
    {stack : List Frame} (h : (closeObj before tail stack).fault? = none) :
    tail.fault? = none ∧ ∀ m ∈ before, ReadableMember m := by
  obtain ⟨htail, hbefore⟩ := Members.fault?_ofList.mp (fault?_nested h)
  exact ⟨htail, fun m hm => hbefore m (List.mem_reverse.mpr hm)⟩

/-- A fault shows through all containers around it. -/
theorem fault?_enclose {v : Json} {stack : List Frame} (h : (enclose v stack).fault? = none) :
    v.fault? = none := by
  induction stack generalizing v with
  | nil => exact h
  | cons f stack ih =>
      cases f with
      | arr before =>
          have htail := (fault?_closeArr (ih h)).1
          rw [Items.fault?] at htail
          split at htail
          next => cases htail
          next hv => exact hv
      | obj before key =>
          have htail := (fault?_closeObj (ih h)).1
          cases key with
          | error f => cases htail
          | ok s =>
              rw [Members.fault?] at htail
              split at htail
              next => cases htail
              next hv => exact hv

theorem fault?_enclose_missing (f : Fault) (stack : List Frame) :
    (enclose (.missing f) stack).fault? ≠ none := by
  intro h
  cases fault?_enclose h

theorem fault?_enclose_closeArr (before : List Json) {tail : Items} {f : Fault}
    (h : tail.fault? = some f) (stack : List Frame) :
    (enclose (closeArr before tail stack) stack).fault? ≠ none := by
  intro hnone
  cases h.symm.trans (fault?_closeArr (fault?_enclose hnone)).1

theorem fault?_enclose_closeObj (before : List (Except Fault String × Json)) {tail : Members}
    {f : Fault} (h : tail.fault? = some f) (stack : List Frame) :
    (enclose (closeObj before tail stack) stack).fault? ≠ none := by
  intro hnone
  cases h.symm.trans (fault?_closeObj (fault?_enclose hnone)).1

/-- Everything that the container holds so far can be read. -/
def Frame.Clean : Frame → Prop
  | .arr before => ∀ v ∈ before, v.fault? = none
  | .obj before key => (∀ m ∈ before, ReadableMember m) ∧ ∃ s, key = .ok s

/-! ## Depth -/

/-- How deep that nests which the container holds so far. -/
def Frame.depth : Frame → Nat
  | .arr before => before.foldr (fun v n => max v.depth n) 0
  | .obj before _ => before.foldr (fun m n => max m.2.depth n) 0

/-- The depth of the outermost container if a value of depth `d` stands in the innermost. -/
def depthAround (d : Nat) : List Frame → Nat
  | [] => d
  | f :: stack => depthAround (max d f.depth + 1) stack

theorem depthAround_mono {d d' : Nat} (h : d ≤ d') (stack : List Frame) :
    depthAround d stack ≤ depthAround d' stack := by
  induction stack generalizing d d' with
  | nil => exact h
  | cons f stack ih => exact ih (by omega)

theorem add_length_le_depthAround (d : Nat) (stack : List Frame) :
    d + stack.length ≤ depthAround d stack := by
  induction stack generalizing d with
  | nil => exact Nat.le_refl _
  | cons f stack ih =>
      have := ih (max d f.depth + 1)
      rw [List.length_cons, depthAround]
      omega

theorem depth_nested (stack : List Frame) (v : Json) : (nested stack v).depth = v.depth := by
  unfold nested
  split
  · rfl
  · rw [depth]

theorem depth_closeArr (before : List Json) (tail : Items) (stack : List Frame) :
    (closeArr before tail stack).depth = max tail.depth (Frame.arr before).depth + 1 := by
  induction before generalizing tail with
  | nil =>
      rw [closeArr, depth_nested, depth]
      simp [Items.ofList, Frame.depth]
  | cons v before ih =>
      rw [closeArr_cons, ih, Items.depth]
      simp only [Frame.depth, List.foldr_cons]
      omega

theorem depth_closeObj (before : List (Except Fault String × Json)) (tail : Members)
    (stack : List Frame) (key : Except Fault String) :
    (closeObj before tail stack).depth = max tail.depth (Frame.obj before key).depth + 1 := by
  induction before generalizing tail with
  | nil =>
      rw [closeObj, depth_nested, depth]
      simp [Members.ofList, Frame.depth]
  | cons m before ih =>
      rw [closeObj_cons, ih, Members.depth]
      simp only [Frame.depth, List.foldr_cons]
      omega

/-! ## One token -/

namespace Reader

/-- How a value starts inside the containers of `stack`. -/
inductive Starts (stack : List Frame) : Token → Reader → Prop where
  | openArr : Starts stack .openArr (.items [] stack)
  | openObj : Starts stack .openObj (.members [] stack)
  | literal (l : Literal) : Starts stack (.literal l) (.after l.value stack)
  | scalar (v : Json) : Starts stack (.scalar v) (.after v stack)

/-- What a token does to a reader. It goes on, or it stops with a fault, or something stands behind the
outermost value. -/
inductive Goes : Reader → Token → Reader → Prop where
  | value {stack : List Frame} {t : Token} {r : Reader} (h : Starts stack t r) :
      Goes (.value stack) t r
  | item {before : List Json} {stack : List Frame} {t : Token} {r : Reader}
      (h : Starts (.arr before :: stack) t r) : Goes (.items before stack) t r
  | emptyArr {stack : List Frame} :
      Goes (.items [] stack) .closeArr (.after (Json.closeArr [] .done stack) stack)
  | emptyObj {stack : List Frame} :
      Goes (.members [] stack) .closeObj (.after (Json.closeObj [] .done stack) stack)
  | key {before : List (Except Fault String × Json)} {stack : List Frame} (s : String) :
      Goes (.members before stack) (.literal (.whole s)) (.colon before (.ok s) stack)
  | unpairedKey {before : List (Except Fault String × Json)} {stack : List Frame} (f : Fault) :
      Goes (.members before stack) (.literal (.unpaired f)) (.colon before (.error f) stack)
  | colon {before : List (Except Fault String × Json)} {key : Except Fault String}
      {stack : List Frame} :
      Goes (.colon before key stack) .colon (.value (.obj before key :: stack))
  | nextItem {v : Json} {before : List Json} {stack : List Frame} :
      Goes (.after v (.arr before :: stack)) .comma (.items (v :: before) stack)
  | closeArr {v : Json} {before : List Json} {stack : List Frame} :
      Goes (.after v (.arr before :: stack)) .closeArr
        (.after (Json.closeArr (v :: before) .done stack) stack)
  | nextMember {v : Json} {before : List (Except Fault String × Json)} {key : Except Fault String}
      {stack : List Frame} :
      Goes (.after v (.obj before key :: stack)) .comma (.members ((key, v) :: before) stack)
  | closeObj {v : Json} {before : List (Except Fault String × Json)} {key : Except Fault String}
      {stack : List Frame} :
      Goes (.after v (.obj before key :: stack)) .closeObj
        (.after (Json.closeObj ((key, v) :: before) .done stack) stack)
  | stop {r : Reader} {t : Token} {v : Json} (h : v.fault? ≠ none) : Goes r t (.stopped v)
  | stopped {v : Json} {t : Token} : Goes (.stopped v) t (.stopped v)
  | trail {v : Json} {t : Token} : Goes (.after v []) t (.trailing v)
  | trailing {v : Json} {t : Token} : Goes (.trailing v) t (.trailing v)

theorem start_cases (stack : List Frame) (t : Token) :
    Starts stack t (start stack t) ∨ ∃ v, start stack t = .stopped v ∧ v.fault? ≠ none := by
  cases t with
  | openArr => exact Or.inl .openArr
  | openObj => exact Or.inl .openObj
  | literal l => exact Or.inl (.literal l)
  | scalar v => exact Or.inl (.scalar v)
  | closeArr | closeObj | comma | colon | stray =>
      exact Or.inr ⟨_, rfl, fault?_enclose_missing _ stack⟩

theorem goes_step (r : Reader) (t : Token) : Goes r t (r.step t) := by
  fun_cases step r t
  case case1 stack =>
    rcases start_cases stack t with h | ⟨v, hstart, hv⟩
    · exact .value h
    · exact hstart ▸ .stop hv
  case case2 => exact .emptyArr
  case case3 => exact .stop (fault?_enclose_closeArr _ rfl _)
  case case4 before stack _ _ =>
    rcases start_cases (.arr before :: stack) t with h | ⟨v, hstart, hv⟩
    · exact .item h
    · exact hstart ▸ .stop hv
  case case5 => exact .emptyObj
  case case6 => exact .stop (fault?_enclose_closeObj _ rfl _)
  case case7 => exact .key _
  case case8 => exact .unpairedKey _
  case case9 => exact .stop (fault?_enclose_missing _ _)
  case case10 => exact .stop (fault?_enclose_closeObj _ rfl _)
  case case11 => exact .stop (fault?_enclose_closeObj _ rfl _)
  case case12 => exact .colon
  case case13 => exact .stop (fault?_enclose_missing _ _)
  case case14 => exact .nextItem
  case case15 => exact .closeArr
  case case16 => exact .stop (fault?_enclose_closeArr _ rfl _)
  case case17 => exact .nextMember
  case case18 => exact .closeObj
  case case19 => exact .stop (fault?_enclose_closeObj _ rfl _)
  case case20 => exact .trail
  case case21 => exact .stopped
  case case22 => exact .trailing

/-! ## Readers that have met no fault -/

/-- Everything that the reader holds can be read. -/
def Clean : Reader → Prop
  | .value stack => ∀ f ∈ stack, f.Clean
  | .items before stack => (∀ v ∈ before, v.fault? = none) ∧ ∀ f ∈ stack, f.Clean
  | .members before stack => (∀ m ∈ before, ReadableMember m) ∧ ∀ f ∈ stack, f.Clean
  | .colon before key stack => (Frame.obj before key).Clean ∧ ∀ f ∈ stack, f.Clean
  | .after v stack => v.fault? = none ∧ ∀ f ∈ stack, f.Clean
  | .stopped _ | .trailing _ => False

theorem Starts.clean {stack : List Frame} {t : Token} {r : Reader} (h : Starts stack t r)
    (hr : r.Clean) : (∀ f ∈ stack, f.Clean) ∧ t.Whole := by
  cases h with
  | openArr | openObj => exact ⟨hr.2, trivial⟩
  | literal l => exact ⟨hr.2, hr.1⟩
  | scalar v => exact ⟨hr.2, hr.1⟩

/-- Behind a fault no reader is clean. -/
theorem Goes.clean {r r' : Reader} {t : Token} (h : Goes r t r') (hr' : r'.Clean) :
    r.Clean ∧ t.Whole := by
  cases h with
  | value h => exact h.clean hr'
  | item h =>
      obtain ⟨hstack, ht⟩ := h.clean hr'
      exact ⟨List.forall_mem_cons.mp hstack, ht⟩
  | emptyArr | emptyObj => exact ⟨⟨by simp, hr'.2⟩, trivial⟩
  | key s => exact ⟨⟨hr'.1.1, hr'.2⟩, rfl⟩
  | unpairedKey f =>
      obtain ⟨⟨-, s, hs⟩, -⟩ := hr'
      cases hs
  | colon => exact ⟨List.forall_mem_cons.mp hr', trivial⟩
  | nextItem =>
      obtain ⟨hbefore, hstack⟩ := hr'
      obtain ⟨hv, hbefore⟩ := List.forall_mem_cons.mp hbefore
      exact ⟨⟨hv, List.forall_mem_cons.mpr ⟨hbefore, hstack⟩⟩, trivial⟩
  | closeArr =>
      obtain ⟨-, hbefore⟩ := fault?_closeArr hr'.1
      obtain ⟨hv, hbefore⟩ := List.forall_mem_cons.mp hbefore
      exact ⟨⟨hv, List.forall_mem_cons.mpr ⟨hbefore, hr'.2⟩⟩, trivial⟩
  | nextMember =>
      obtain ⟨hbefore, hstack⟩ := hr'
      obtain ⟨⟨hkey, hv⟩, hbefore⟩ := List.forall_mem_cons.mp hbefore
      exact ⟨⟨hv, List.forall_mem_cons.mpr ⟨⟨hbefore, hkey⟩, hstack⟩⟩, trivial⟩
  | closeObj =>
      obtain ⟨-, hbefore⟩ := fault?_closeObj hr'.1
      obtain ⟨⟨hkey, hv⟩, hbefore⟩ := List.forall_mem_cons.mp hbefore
      exact ⟨⟨hv, List.forall_mem_cons.mpr ⟨⟨hbefore, hkey⟩, hr'.2⟩⟩, trivial⟩
  | stop | stopped | trail | trailing => exact hr'.elim

/-- How deep the text nests as far as it has been read. -/
def depth : Reader → Nat
  | .value stack => depthAround 0 stack
  | .items before stack => depthAround 0 (.arr before :: stack)
  | .members before stack => depthAround 0 (.obj before (.ok "") :: stack)
  | .colon before key stack => depthAround 0 (.obj before key :: stack)
  | .after v stack => depthAround v.depth stack
  | .stopped v | .trailing v => v.depth

theorem Starts.depth_le {stack : List Frame} {t : Token} {r : Reader} (h : Starts stack t r) :
    depthAround 0 stack ≤ r.depth := by
  cases h <;> exact depthAround_mono (Nat.zero_le _) stack

/-- The depth only grows. -/
theorem Goes.depth_le {r r' : Reader} {t : Token} (h : Goes r t r') (hr' : r'.Clean) :
    r.depth ≤ r'.depth := by
  cases h with
  | value h => exact h.depth_le
  | item h => exact h.depth_le
  | emptyArr =>
      show depthAround (max _ _ + 1) _ ≤ depthAround _ _
      rw [depth_closeArr]
      exact Nat.le_refl _
  | emptyObj =>
      show depthAround (max _ _ + 1) _ ≤ depthAround _ _
      rw [depth_closeObj _ _ _ (.ok "")]
      exact Nat.le_refl _
  | key s => exact Nat.le_refl _
  | unpairedKey f => exact Nat.le_refl _
  | colon => exact Nat.le_refl _
  | nextItem => exact depthAround_mono (Nat.succ_le_succ (Nat.le_max_right _ _)) _
  | closeArr =>
      show depthAround (max _ _ + 1) _ ≤ depthAround _ _
      rw [depth_closeArr]
      exact depthAround_mono (Nat.succ_le_succ (Nat.le_max_right _ _)) _
  | nextMember => exact depthAround_mono (Nat.succ_le_succ (Nat.le_max_right _ _)) _
  | @closeObj v before key stack =>
      show depthAround (max _ _ + 1) _ ≤ depthAround _ _
      rw [depth_closeObj _ _ _ key]
      exact depthAround_mono (Nat.succ_le_succ (Nat.le_max_right _ _)) _
  | stop | stopped | trail | trailing => exact hr'.elim

/-! ## Inside other containers -/

/-- The reader with more containers open around it. -/
def within (outer : List Frame) : Reader → Reader
  | .value stack => .value (stack ++ outer)
  | .items before stack => .items before (stack ++ outer)
  | .members before stack => .members before (stack ++ outer)
  | .colon before key stack => .colon before key (stack ++ outer)
  | .after v stack => .after v (stack ++ outer)
  | .stopped v => .stopped v
  | .trailing v => .trailing v

theorem Starts.within {stack : List Frame} {t : Token} {r : Reader} (h : Starts stack t r)
    (outer : List Frame) : start (stack ++ outer) t = r.within outer := by
  cases h <;> rfl

/-- A container is closed in the same way inside others, if it does not become too deep there. -/
theorem closeArr_append {before : List Json} {stack outer : List Frame}
    (hroom : depthAround (Json.closeArr before .done stack).depth stack + outer.length ≤ nestingLimit) :
    Json.closeArr before .done (stack ++ outer) = Json.closeArr before .done stack := by
  have hle := add_length_le_depthAround (Json.closeArr before .done stack).depth stack
  rw [depth_closeArr] at hle hroom
  rw [Json.closeArr, Json.closeArr, nested_of_lt (by rw [List.length_append]; omega),
    nested_of_lt (by omega)]

theorem closeObj_append {before : List (Except Fault String × Json)} {stack outer : List Frame}
    (hroom : depthAround (Json.closeObj before .done stack).depth stack + outer.length ≤ nestingLimit) :
    Json.closeObj before .done (stack ++ outer) = Json.closeObj before .done stack := by
  have hle := add_length_le_depthAround (Json.closeObj before .done stack).depth stack
  rw [depth_closeObj _ _ _ (.ok "")] at hle hroom
  rw [Json.closeObj, Json.closeObj, nested_of_lt (by rw [List.length_append]; omega),
    nested_of_lt (by omega)]

/-- A token does the same inside other containers. -/
theorem Goes.within {r r' : Reader} {t : Token} (h : Goes r t r') (hr' : r'.Clean)
    {outer : List Frame} (hroom : r'.depth + outer.length ≤ nestingLimit) :
    (r.within outer).step t = r'.within outer := by
  cases h with
  | value h => exact h.within outer
  | @item before stack t _ h =>
      have ht : t ≠ .closeArr := by
        rintro rfl
        cases h
      exact (awaits_items before (stack ++ outer) t ht).trans (h.within outer)
  | @emptyArr stack =>
      exact congrArg (Reader.after · (stack ++ outer)) (closeArr_append hroom)
  | @emptyObj stack =>
      exact congrArg (Reader.after · (stack ++ outer)) (closeObj_append hroom)
  | @key before stack s => cases before <;> rfl
  | unpairedKey f =>
      obtain ⟨⟨-, s, hs⟩, -⟩ := hr'
      cases hs
  | colon => rfl
  | nextItem => rfl
  | @closeArr v before stack =>
      exact congrArg (Reader.after · (stack ++ outer)) (closeArr_append hroom)
  | nextMember => rfl
  | @closeObj v before key stack =>
      exact congrArg (Reader.after · (stack ++ outer)) (closeObj_append hroom)
  | stop | stopped | trail | trailing => exact hr'.elim

/-! ## Whole runs -/

theorem run_of_end {cs : List Char} (h : nextToken? cs = none) (r : Reader) : r.run cs = r := by
  rw [run]
  split
  next => rfl
  next htoken => cases h.symm.trans htoken

/-- Blanks in front do not matter. -/
theorem run_blanks {cs : List Char} (h : nextToken? cs = none) (r : Reader) (more : List Char) :
    r.run (cs ++ more) = r.run more := by
  have hsame := nextToken?_blanks h more
  cases htoken : nextToken? more with
  | none => rw [run_of_end htoken, run_of_end (hsame.trans htoken)]
  | some p => rw [run_of_nextToken? htoken, run_of_nextToken? (hsame.trans htoken)]

theorem clean_of_run {r : Reader} {cs : List Char} (h : (r.run cs).Clean) :
    r.Clean ∧ r.depth ≤ (r.run cs).depth := by
  fun_induction run r cs with
  | case1 r cs htoken => exact ⟨h, Nat.le_refl _⟩
  | case2 r cs t rest htoken ih =>
      obtain ⟨hstep, hle⟩ := ih h
      have hgoes := goes_step r t
      exact ⟨(hgoes.clean hstep).1, (hgoes.depth_le hstep).trans hle⟩

/-- Inside other containers a text is read as it is read alone. -/
theorem run_within {r : Reader} {cs : List Char} {v : Json} (hrun : r.run cs = .after v [])
    (hv : v.fault? = none) (outer : List Frame) (hroom : v.depth + outer.length ≤ nestingLimit)
    {more : List Char} (hmore : Ends more) :
    (r.within outer).run (cs ++ more) = (after v outer).run more := by
  fun_induction run r cs with
  | case1 r cs htoken =>
      subst hrun
      exact run_blanks htoken _ more
  | case2 r cs t rest htoken ih =>
      -- The run ends without a fault and no deeper than the value, so on the way it was so too.
      have hend : ((r.step t).run rest).Clean := by
        rw [hrun]
        exact ⟨hv, by simp⟩
      obtain ⟨hstep, hle⟩ := clean_of_run hend
      have hgoes := goes_step r t
      have hnext := nextToken?_append htoken (hgoes.clean hstep).2 hmore
      have hdepth : (r.step t).depth ≤ v.depth := by rwa [hrun] at hle
      rw [run_of_nextToken? hnext, hgoes.within hstep (by omega)]
      exact ih hrun

/-- A reader that has stopped holds a fault. -/
theorem fault?_of_run_eq_stopped {r : Reader} {cs : List Char} {v : Json}
    (hr : ∀ w, r = .stopped w → w.fault? ≠ none) (h : r.run cs = .stopped v) : v.fault? ≠ none := by
  fun_induction run r cs with
  | case1 r cs htoken => exact hr v h
  | case2 r cs t rest htoken ih =>
      refine ih (fun w hw => ?_) h
      have hgoes := goes_step r t
      rw [hw] at hgoes
      cases hgoes with
      | value h | item h => cases h
      | stop hw => exact hw
      | stopped => exact hr w rfl

/-- If the text ends before its value is complete, that is a fault. -/
theorem finish_cases {r : Reader} (h : r.finish.fault? = none) :
    (∃ v, r = .after v []) ∨ (∃ v, r = .stopped v) ∨ ∃ v, r = .trailing v := by
  revert h
  fun_cases finish r <;> intro h
  case case1 => exact absurd h (fault?_enclose_missing _ _)
  case case2 | case3 => exact absurd h (fault?_enclose_closeArr _ rfl _)
  case case4 | case5 => exact absurd h (fault?_enclose_closeObj _ rfl _)
  case case6 => exact absurd h (fault?_enclose_missing _ _)
  case case7 v => exact Or.inl ⟨v, rfl⟩
  case case8 => exact absurd h (fault?_enclose_closeArr _ rfl _)
  case case9 => exact absurd h (fault?_enclose_closeObj _ rfl _)
  case case10 v => exact Or.inr (Or.inl ⟨v, rfl⟩)
  case case11 v => exact Or.inr (Or.inr ⟨v, rfl⟩)

/-- A text that is read without fault leaves the reader with its value. -/
theorem run_of_ofChars {cs : List Char} {v : Json} (h : Document.ofChars cs = ⟨v, false⟩)
    (hv : v.fault? = none) : (value []).run cs = .after v [] := by
  obtain ⟨hfinish, htrailing⟩ := Document.mk.inj h
  have hclean : ((value []).run cs).finish.fault? = none := by rwa [hfinish]
  rcases finish_cases hclean with ⟨w, hw⟩ | ⟨w, hw⟩ | ⟨w, hw⟩
  · rw [hw] at hfinish ⊢
    exact congrArg (Reader.after · []) hfinish
  · have hfault := fault?_of_run_eq_stopped (r := value []) (fun _ h => nomatch h) hw
    rw [hw] at hfinish
    exact absurd hv (hfinish ▸ hfault)
  · rw [hw] at htrailing
    cases htrailing

/-- The first token of a text that is read without fault starts a value. -/
theorem exists_nextToken? {cs : List Char} {v : Json} (hrun : (value []).run cs = .after v [])
    (hv : v.fault? = none) :
    ∃ t rest, nextToken? cs = some (t, rest) ∧ t.Whole ∧ t ≠ .closeArr := by
  cases htoken : nextToken? cs with
  | none =>
      rw [run_of_end htoken] at hrun
      cases hrun
  | some p =>
      obtain ⟨t, rest⟩ := p
      rw [run_of_nextToken? htoken] at hrun
      have hend : (((value []).step t).run rest).Clean := by
        rw [hrun]
        exact ⟨hv, by simp⟩
      have hstep := (clean_of_run hend).1
      refine ⟨t, rest, rfl, ((goes_step _ t).clean hstep).2, ?_⟩
      rintro rfl
      exact hstep

/-- A text is read as an item if a comma or the closing bracket comes behind it. -/
theorem run_item {cs : List Char} {v : Json} (h : Document.ofChars cs = ⟨v, false⟩)
    (hv : v.fault? = none) (before : List Json) {stack : List Frame}
    (hroom : v.depth + stack.length < nestingLimit) {more : List Char} (hmore : Ends more) :
    (items before stack).run (cs ++ more) = (after v (.arr before :: stack)).run more := by
  have hrun := run_of_ofChars h hv
  obtain ⟨t, rest, htoken, hwhole, ht⟩ := exists_nextToken? hrun hv
  have hnext := nextToken?_append htoken hwhole hmore
  have hvalue : (value (.arr before :: stack)).run (cs ++ more)
      = (after v (.arr before :: stack)).run more :=
    run_within hrun hv (.arr before :: stack) (by rw [List.length_cons]; omega) hmore
  rw [← hvalue, (awaits_items before stack).run_of_nextToken? hnext ht,
    (awaits_value _).run_of_nextToken? hnext ht]

/-- Texts with commas between them, up to the bracket that closes the array. -/
theorem run_items_of_texts (stack : List Frame) {css : List (List Char)} {vs : List Json}
    (h : List.Forall₂ (fun cs v => Document.ofChars cs = ⟨v, false⟩ ∧ v.fault? = none
      ∧ v.depth + stack.length < nestingLimit) css vs) (hne : css ≠ []) (before : List Json)
    (more : List Char) :
    (items before stack).run ([','].intercalate css ++ ']' :: more)
      = (after (Json.closeArr before (Items.ofList .done vs) stack) stack).run more := by
  induction h generalizing before with
  | nil => exact absurd rfl hne
  | @cons cs v css vs hcs hcss ih =>
      obtain ⟨hread, hv, hroom⟩ := hcs
      cases hcss with
      | nil =>
          rw [List.intercalate_singleton, run_item hread hv before hroom (by simp [Ends])]
          rw [run_of_nextToken? (t := .closeArr) rfl]
          show (after (Json.closeArr (v :: before) .done stack) stack).run more = _
          rw [closeArr_cons]
          rfl
      | @cons cs' v' css vs hcs' hcss =>
          rw [List.intercalate_cons_cons, List.append_assoc, List.append_assoc,
            run_item hread hv before hroom (by simp [Ends])]
          rw [List.singleton_append, run_of_nextToken? (t := .comma) rfl]
          refine (ih (by simp) (v :: before)).trans ?_
          rw [closeArr_cons]
          rfl

end Reader

/-- **The array of texts is the array of their values**, if none of them nests so deep that it may not
stand inside an array. -/
theorem Document.ofString_array {texts : List String} {vs : List Json}
    (h : List.Forall₂ (fun text v => ofString text = ⟨v, false⟩ ∧ v.fault? = none
      ∧ v.depth < nestingLimit) texts vs) :
    ofString ("[" ++ ",".intercalate texts ++ "]") = ⟨array vs, false⟩ := by
  have hchars : ("[" ++ ",".intercalate texts ++ "]").toList
      = '[' :: ([','].intercalate (texts.map String.toList) ++ [']']) := by
    simp [String.toList_intercalate]
  have hitems : List.Forall₂ (fun cs v => ofChars cs = ⟨v, false⟩ ∧ v.fault? = none
      ∧ v.depth + ([] : List Frame).length < nestingLimit) (texts.map String.toList) vs :=
    List.forall₂_map_left_iff.mpr h
  have hrun : (Reader.value []).run ("[" ++ ",".intercalate texts ++ "]").toList
      = .after (array vs) [] := by
    rw [hchars, Reader.run_of_nextToken? (t := .openArr) rfl]
    show (Reader.items [] []).run _ = _
    cases texts with
    | nil =>
        cases h
        rw [Reader.run_of_nextToken? (t := .closeArr) rfl, Reader.run_of_end rfl]
        rfl
    | cons text texts =>
        rw [Reader.run_items_of_texts [] hitems (by simp), Reader.run_of_end rfl]
        rfl
  rw [ofString, ofChars, hrun]
  rfl

end CallGraph.Json
