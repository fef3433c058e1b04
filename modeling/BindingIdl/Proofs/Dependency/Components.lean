import BindingIdl.Dependency.Order
import Mathlib.Data.List.Infix
import Mathlib.Data.List.Nodup
import Mathlib.Data.List.Perm.Subperm
import Mathlib.Logic.Relation

/-!
# Strongly connected components

Tarjan's search gives out the strongly connected components, each behind those it leads to.

`Search.Sound` is what holds between any two steps: nodes further down the stack lead to those
further up, and every component given out leads nowhere but into itself and earlier ones
(`Settled`). `Search.Explored` is what a stretch of the search has done: the nodes it leaves above
the old stack are finished, they lead back into the old stack, and no edge from them comes back to a
lower place than the answer says. Stretches compose (`Explored.append`). So a node whose successors
are explored either has something below it that it leads to and stays (`Explored.stay`), or closes
its component (`Explored.close`), and `visit_explored` follows by induction on the depth.
-/

namespace BindingIdl

variable {next : Nat → List Nat} {n : Nat}

/-- There is a way from one node to another. -/
abbrev Leads (next : Nat → List Nat) : Nat → Nat → Prop :=
  Relation.ReflTransGen fun u v => v ∈ next u

/-! ## Components given out -/

/-- Strongly connected components, the latest in front, that lead nowhere but to earlier ones. -/
inductive Settled (next : Nat → List Nat) : List (List Nat) → Prop where
  | nil : Settled next []
  | cons {group earlier} : group ≠ [] → (∀ u ∈ group, ∀ v ∈ group, Leads next u v) →
      (∀ u ∈ group, ∀ v ∈ next u, v ∈ group ∨ v ∈ earlier.flatten) → Settled next earlier →
      Settled next (group :: earlier)

namespace Settled

variable {groups earlier : List (List Nat)} {u v : Nat}

/-- No edge leads out of the components that have been given out. -/
theorem next_mem (h : Settled next groups) (hu : u ∈ groups.flatten) (hv : v ∈ next u) :
    v ∈ groups.flatten := by
  induction h with
  | nil => exact absurd hu List.not_mem_nil
  | cons _ _ hclosed _ ih =>
    rw [List.flatten_cons, List.mem_append] at hu ⊢
    obtain hu | hu := hu
    · exact hclosed u hu v hv
    · exact .inr (ih hu)

/-- What components have been given out leads to other such components only. -/
theorem leads_mem (h : Settled next groups) (hu : u ∈ groups.flatten) (huv : Leads next u v) :
    v ∈ groups.flatten := by
  induction huv with
  | refl => exact hu
  | tail _ hstep ih => exact h.next_mem ih hstep

theorem ne_nil (h : Settled next groups) : ∀ group ∈ groups, group ≠ [] := by
  induction h with
  | nil => exact fun group hgroup => absurd hgroup List.not_mem_nil
  | cons hne _ _ _ ih => exact List.forall_mem_cons.mpr ⟨hne, ih⟩

/-- The nodes of one component lead to each other. -/
theorem connected (h : Settled next groups) {group : List Nat} (hgroup : group ∈ groups)
    (hu : u ∈ group) (hv : v ∈ group) : Leads next u v := by
  induction h with
  | nil => exact absurd hgroup List.not_mem_nil
  | cons _ hconnected _ _ ih =>
    obtain rfl | hgroup := List.mem_cons.mp hgroup
    · exact hconnected u hu v hv
    · exact ih hgroup

/-- Two nodes that lead to each other are in one component. -/
theorem same_group (h : Settled next groups) (hnodup : groups.flatten.Nodup)
    (hu : u ∈ groups.flatten) (hv : v ∈ groups.flatten) (huv : Leads next u v)
    (hvu : Leads next v u) : ∃ group ∈ groups, u ∈ group ∧ v ∈ group := by
  induction h with
  | nil => exact absurd hu List.not_mem_nil
  | @cons group earlier _ _ _ hearlier ih =>
    rw [List.flatten_cons] at hnodup hu hv
    obtain ⟨-, hnodup, hdisjoint⟩ := List.nodup_append'.mp hnodup
    -- from an earlier component there is no way back into the latest one
    have hback {x y : Nat} (hx : x ∈ group) (hy : y ∈ earlier.flatten) : ¬ Leads next y x :=
      fun hyx => hdisjoint hx (hearlier.leads_mem hy hyx)
    obtain hu | hu := List.mem_append.mp hu <;> obtain hv | hv := List.mem_append.mp hv
    · exact ⟨group, List.mem_cons_self, hu, hv⟩
    · exact absurd hvu (hback hu hv)
    · exact absurd huv (hback hv hu)
    · obtain ⟨g, hg, hmem⟩ := ih hnodup hu hv
      exact ⟨g, List.mem_cons_of_mem _ hg, hmem⟩

/-- An edge never leads from an earlier component to a later one. -/
theorem pairwise (h : Settled next groups) (hnodup : groups.flatten.Nodup) :
    groups.Pairwise fun later earlier => ∀ u ∈ earlier, ∀ v ∈ later, v ∉ next u := by
  induction h with
  | nil => exact .nil
  | @cons group earlier _ _ _ hearlier ih =>
    obtain ⟨-, hnodup, hdisjoint⟩ := List.nodup_append'.mp (List.flatten_cons ▸ hnodup)
    refine List.pairwise_cons.mpr ⟨fun g hg u hu v hv hstep => ?_, ih hnodup⟩
    exact hdisjoint hv (hearlier.next_mem (List.mem_flatten_of_mem hg hu) hstep)

/-- In the order in which components are given out, each comes behind those it leads to. -/
theorem behind (h : Settled next groups) (hnodup : groups.flatten.Nodup) {i j : Nat}
    {group group' : List Nat} (hi : groups.reverse[i]? = some group)
    (hj : groups.reverse[j]? = some group') (hu : u ∈ group) (hv : v ∈ group')
    (hstep : v ∈ next u) (hne : i ≠ j) : j < i := by
  by_contra hle
  have hpairwise := List.pairwise_iff_getElem.mp (List.pairwise_reverse.mpr (h.pairwise hnodup))
  obtain ⟨hlt, rfl⟩ := List.getElem?_eq_some_iff.mp hi
  obtain ⟨hlt', rfl⟩ := List.getElem?_eq_some_iff.mp hj
  exact hpairwise i j hlt hlt' (by omega) u hu v hv hstep

end Settled

namespace Search

variable {s t : Search} {nodes above : List Nat} {low v : Nat}

/-! ## The stack -/

@[simp] theorem stack_push (s : Search) (v : Nat) : (s.push v).stack = v :: s.stack := rfl

@[simp] theorem groups_push (s : Search) (v : Nat) : (s.push v).groups = s.groups := rfl

@[simp] theorem entered_push (s : Search) (v : Nat) : (s.push v).entered = v :: s.entered := rfl

/-- To close down to an old stack gives out what has been put above it. -/
theorem close_eq (hstack : t.stack = above ++ s.stack) :
    t.close s.stack.length = ⟨s.stack, above :: t.groups⟩ := by
  have hlength : t.stack.length - s.stack.length = above.length := by
    rw [hstack, List.length_append, Nat.add_sub_cancel]
  rw [close, hlength, hstack, List.drop_left, List.take_left]

theorem place_lt (h : v ∈ s.stack) : s.place v < s.stack.length := by
  have hlt := List.idxOf_lt_length_of_mem (List.mem_reverse.mpr h)
  rwa [List.length_reverse] at hlt

theorem place_eq_length (h : v ∉ s.stack) : s.place v = s.stack.length := by
  rw [place, List.idxOf_eq_length (mt List.mem_reverse.mp h), List.length_reverse]

/-- A node keeps its place for as long as it is on the stack. -/
theorem place_of_append (hstack : t.stack = above ++ s.stack) (h : v ∈ s.stack) :
    t.place v = s.place v := by
  rw [place, hstack, List.reverse_append, List.idxOf_append_of_mem (List.mem_reverse.mpr h), place]

/-- A place below the new nodes is that of an old one. -/
theorem mem_of_place_lt (hstack : t.stack = above ++ s.stack) (h : t.place v < s.stack.length) :
    v ∈ s.stack := by
  by_contra hv
  rw [place, hstack, List.reverse_append, List.idxOf_append_of_notMem (mt List.mem_reverse.mp hv),
    List.length_reverse] at h
  omega

/-! ## Invariants -/

/-- What holds of a search between any two of its steps. -/
structure Sound (next : Nat → List Nat) (n : Nat) (s : Search) : Prop where
  nodup : s.entered.Nodup
  inside : ∀ v ∈ s.entered, v < n
  /-- What lies lower on the stack leads to what lies higher. -/
  stack : s.stack.Pairwise fun higher lower => Leads next lower higher
  groups : Settled next s.groups

/-- Before the first node nothing has been entered. -/
theorem sound_start : Sound next n start := ⟨.nil, by simp [start, entered], .nil, .nil⟩

/-- As long as a node has not been entered, there is room for more depth. -/
theorem Sound.length_lt (h : s.Sound next n) (hv : v < n) (hfresh : v ∉ s.entered) :
    s.entered.length < n := by
  have hnodup : (v :: s.entered).Nodup := List.nodup_cons.mpr ⟨hfresh, h.nodup⟩
  have hsub : v :: s.entered ⊆ List.range n := fun u hu => by
    obtain rfl | hu := List.mem_cons.mp hu
    · exact List.mem_range.mpr hv
    · exact List.mem_range.mpr (h.inside u hu)
  have hle := (hnodup.subperm hsub).length_le
  rw [List.length_cons, List.length_range] at hle
  omega

/-- A fresh node goes on top if all of the stack leads to it. -/
theorem Sound.push (h : s.Sound next n) (hv : v < n) (hfresh : v ∉ s.entered)
    (hleads : ∀ u ∈ s.stack, Leads next u v) : (s.push v).Sound next n where
  nodup := List.nodup_cons.mpr ⟨hfresh, h.nodup⟩
  inside := List.forall_mem_cons.mpr ⟨hv, h.inside⟩
  stack := List.pairwise_cons.mpr ⟨hleads, h.stack⟩
  groups := h.groups

/-- From `s` to `t` the search has gone through `nodes`. It has put `above` on the stack and come
back to the place `low`. -/
structure Explored (next : Nat → List Nat) (n : Nat) (s : Search) (nodes above : List Nat)
    (t : Search) (low : Nat) : Prop where
  sound : t.Sound next n
  stack : t.stack = above ++ s.stack
  groups : s.groups <:+ t.groups
  entered : ∀ v ∈ nodes, v ∈ t.entered
  /-- The nodes above the old stack are finished. -/
  finished : ∀ u ∈ above, ∀ v ∈ next u, v ∈ t.entered
  /-- Their components reach further down. -/
  back : ∀ u ∈ above, ∃ v ∈ s.stack, Leads next u v
  /-- One of the nodes does come back to a place that is as low. -/
  reached : low < s.stack.length →
    ∃ v ∈ nodes, ∃ w ∈ s.stack, s.place w ≤ low ∧ Leads next v w
  nodes_low : ∀ v ∈ nodes, v ∈ s.stack → low ≤ s.place v
  /-- No edge comes back to a lower place. -/
  above_low : ∀ u ∈ above, ∀ v ∈ next u, v ∈ s.stack → low ≤ s.place v

namespace Explored

/-- Once entered, a node stays so: it moves from the stack into a component at most. -/
theorem entered_of_mem (h : Explored next n s nodes above t low) (hv : v ∈ s.entered) :
    v ∈ t.entered := by
  obtain hv | hv := List.mem_append.mp hv
  · exact List.mem_append_left _ (h.stack ▸ List.mem_append_right _ hv)
  · exact List.mem_append_right _ (h.groups.flatten.subset hv)

/-- The search does not forget a node. -/
theorem length_le (h : Explored next n s nodes above t low) :
    s.entered.length ≤ t.entered.length := by
  have hgroups := h.groups.flatten.length_le
  rw [Search.entered, Search.entered, List.length_append, List.length_append, h.stack,
    List.length_append]
  omega

/-- What all of the old stack leads to, all of the new stack leads to. -/
theorem leads (h : Explored next n s nodes above t low) (hv : ∀ u ∈ s.stack, Leads next u v) :
    ∀ u ∈ t.stack, Leads next u v := by
  intro u hu
  rw [h.stack] at hu
  obtain hu | hu := List.mem_append.mp hu
  · obtain ⟨w, hw, huw⟩ := h.back u hu
    exact huw.trans (hv w hw)
  · exact hv u hu

/-- No nodes to go through: the search stays where it is. -/
theorem nil (h : s.Sound next n) (hlow : s.stack.length ≤ low) :
    Explored next n s [] [] s low where
  sound := h
  stack := rfl
  groups := List.suffix_rfl
  entered := by simp
  finished := by simp
  back := by simp
  reached hlt := absurd hlt (by omega)
  nodes_low := by simp
  above_low := by simp

/-- A node that has been entered before is passed over. -/
theorem of_entered (h : s.Sound next n) (hv : v ∈ s.entered) :
    Explored next n s [v] [] s (s.place v) where
  sound := h
  stack := rfl
  groups := List.suffix_rfl
  entered := by simpa using hv
  finished := by simp
  back := by simp
  reached hlt := by
    by_cases hstack : v ∈ s.stack
    · exact ⟨v, List.mem_singleton_self v, v, hstack, Nat.le_refl _, .refl⟩
    · rw [place_eq_length hstack] at hlt
      exact absurd hlt (Nat.lt_irrefl _)
  nodes_low := by simp
  above_low := by simp

/-- One stretch of the search goes on where another has ended. -/
theorem append {u : Search} {more higher : List Nat} {low' : Nat}
    (h : Explored next n s nodes above t low) (h' : Explored next n t more higher u low') :
    Explored next n s (nodes ++ more) (higher ++ above) u (min low low') := by
  have old {v : Nat} (hv : v ∈ s.stack) : v ∈ t.stack := h.stack ▸ List.mem_append_right _ hv
  have hplace {v : Nat} (hv : v ∈ s.stack) := place_of_append h.stack hv
  -- what leads back into the middle stack leads back into the old one
  have hdown {w : Nat} (hw : w ∈ t.stack) : ∃ x ∈ s.stack, Leads next w x := by
    rw [h.stack] at hw
    obtain hw | hw := List.mem_append.mp hw
    · exact h.back w hw
    · exact ⟨w, hw, .refl⟩
  constructor
  case sound =>
    exact h'.sound
  case stack =>
    rw [h'.stack, h.stack, List.append_assoc]
  case groups =>
    exact h.groups.trans h'.groups
  case entered =>
    intro v hv
    obtain hv | hv := List.mem_append.mp hv
    · exact h'.entered_of_mem (h.entered v hv)
    · exact h'.entered v hv
  case finished =>
    intro x hx v hv
    obtain hx | hx := List.mem_append.mp hx
    · exact h'.finished x hx v hv
    · exact h'.entered_of_mem (h.finished x hx v hv)
  case back =>
    intro x hx
    obtain hx | hx := List.mem_append.mp hx
    · obtain ⟨w, hw, hxw⟩ := h'.back x hx
      obtain ⟨y, hy, hwy⟩ := hdown hw
      exact ⟨y, hy, hxw.trans hwy⟩
    · exact h.back x hx
  case reached =>
    intro hlt
    obtain ⟨hmin, hle⟩ | ⟨hmin, hle⟩ := Nat.le_total low low' |>.imp
      (fun hle => And.intro (Nat.min_eq_left hle) hle)
      (fun hle => And.intro (Nat.min_eq_right hle) hle)
    · rw [hmin] at hlt ⊢
      obtain ⟨v, hv, hreach⟩ := h.reached hlt
      exact ⟨v, List.mem_append_left _ hv, hreach⟩
    · rw [hmin] at hlt ⊢
      have hheight : s.stack.length ≤ t.stack.length := by
        rw [h.stack, List.length_append]
        omega
      obtain ⟨v, hv, w, -, hlow, hvw⟩ := h'.reached (by omega)
      -- so low a place is one of the old stack
      have hw := mem_of_place_lt h.stack (Nat.lt_of_le_of_lt hlow hlt)
      rw [hplace hw] at hlow
      exact ⟨v, List.mem_append_right _ hv, w, hw, hlow, hvw⟩
  case nodes_low =>
    intro v hv hstack
    obtain hv | hv := List.mem_append.mp hv
    · exact (Nat.min_le_left _ _).trans (h.nodes_low v hv hstack)
    · have := h'.nodes_low v hv (old hstack)
      rw [hplace hstack] at this
      exact (Nat.min_le_right _ _).trans this
  case above_low =>
    intro x hx v hv hstack
    obtain hx | hx := List.mem_append.mp hx
    · have := h'.above_low x hx v hv (old hstack)
      rw [hplace hstack] at this
      exact (Nat.min_le_right _ _).trans this
    · exact (Nat.min_le_left _ _).trans (h.above_low x hx v hv hstack)

/-! ## Leaving a node -/

/-- A node that comes back to a lower place stays on the stack. -/
theorem stay (h : Explored next n (s.push v) (v :: next v) above t low)
    (hlow : low < s.stack.length) (hfresh : v ∉ s.entered) :
    Explored next n s [v] (above ++ [v]) t low := by
  have hpush : (s.push v).stack = [v] ++ s.stack := rfl
  -- the search has come back below `v`, so `v` leads to an old node `x` and stays with it
  obtain ⟨x, hx, hplace, hvx⟩ : ∃ x ∈ s.stack, s.place x ≤ low ∧ Leads next v x := by
    obtain ⟨w, hw, x, -, hplace, hwx⟩ := h.reached (by rw [stack_push, List.length_cons]; omega)
    have hx := mem_of_place_lt hpush (Nat.lt_of_le_of_lt hplace hlow)
    rw [place_of_append hpush hx] at hplace
    obtain rfl | hw := List.mem_cons.mp hw
    · exact ⟨x, hx, hplace, hwx⟩
    · exact ⟨x, hx, hplace, .head hw hwx⟩
  constructor
  case sound =>
    exact h.sound
  case stack =>
    rw [h.stack, stack_push, List.append_assoc, List.singleton_append]
  case groups =>
    exact h.groups
  case entered =>
    intro w hw
    rw [List.mem_singleton.mp hw]
    exact h.entered_of_mem List.mem_cons_self
  case finished =>
    intro u hu w hw
    obtain hu | hu := List.mem_append.mp hu
    · exact h.finished u hu w hw
    · rw [List.mem_singleton.mp hu] at hw
      exact h.entered w (List.mem_cons_of_mem _ hw)
  case back =>
    intro u hu
    obtain hu | hu := List.mem_append.mp hu
    · obtain ⟨w, hw, huw⟩ := h.back u hu
      obtain rfl | hw := List.mem_cons.mp hw
      · exact ⟨x, hx, huw.trans hvx⟩
      · exact ⟨w, hw, huw⟩
    · rw [List.mem_singleton.mp hu]
      exact ⟨x, hx, hvx⟩
  case reached =>
    exact fun _ => ⟨v, List.mem_singleton_self v, x, hx, hplace, hvx⟩
  case nodes_low =>
    intro w hw hstack
    rw [List.mem_singleton.mp hw] at hstack
    exact absurd (List.mem_append_left _ hstack) hfresh
  case above_low =>
    intro u hu w hw hstack
    have hmem : w ∈ (s.push v).stack := List.mem_cons_of_mem _ hstack
    rw [← place_of_append hpush hstack]
    obtain hu | hu := List.mem_append.mp hu
    · exact h.above_low u hu w hw hmem
    · rw [List.mem_singleton.mp hu] at hw
      exact h.nodes_low w (List.mem_cons_of_mem _ hw) hmem

/-- Where a node comes back to nothing lower, it and all above it lead nowhere else but to
components that have been given out. -/
theorem closed (h : Explored next n (s.push v) (v :: next v) above t low)
    (hlow : s.stack.length ≤ low) :
    ∀ u ∈ above ++ [v], ∀ w ∈ next u, w ∈ above ++ [v] ∨ w ∈ t.groups.flatten := by
  have hpush : (s.push v).stack = [v] ++ s.stack := rfl
  have not_lower {w : Nat} (hw : w ∈ s.stack) : ¬ low ≤ (s.push v).place w := by
    rw [place_of_append hpush hw]
    have := place_lt hw
    omega
  intro u hu w hw
  have hmem : w ∈ t.entered := by
    obtain hu | hu := List.mem_append.mp hu
    · exact h.finished u hu w hw
    · rw [List.mem_singleton.mp hu] at hw
      exact h.entered w (List.mem_cons_of_mem _ hw)
  -- a neighbour has been entered: it is among these, further down, or in a component
  obtain hmem | hmem := List.mem_append.mp hmem
  · rw [h.stack, hpush, ← List.append_assoc] at hmem
    obtain hmem | hmem := List.mem_append.mp hmem
    · exact .inl hmem
    · -- one further down would have lowered what is come back to
      have hold : w ∈ (s.push v).stack := List.mem_cons_of_mem _ hmem
      obtain hu | hu := List.mem_append.mp hu
      · exact absurd (h.above_low u hu w hw hold) (not_lower hmem)
      · rw [List.mem_singleton.mp hu] at hw
        exact absurd (h.nodes_low w (List.mem_cons_of_mem _ hw) hold) (not_lower hmem)
  · exact .inr hmem

/-- Then they are strongly connected. -/
theorem connected (h : Explored next n (s.push v) (v :: next v) above t low)
    (hlow : s.stack.length ≤ low) :
    ∀ u ∈ above ++ [v], Leads next u v ∧ Leads next v u := by
  intro u hu
  obtain hu | hu := List.mem_append.mp hu
  · have hcross := (List.pairwise_append.mp (h.stack ▸ h.sound.stack)).2.2
    refine ⟨?_, hcross u hu v List.mem_cons_self⟩
    have hinside {w : Nat} (huw : Leads next u w) : w ∈ above ++ [v] ∨ w ∈ t.groups.flatten := by
      induction huw with
      | refl => exact .inl (List.mem_append_left _ hu)
      | tail _ hstep ih =>
        obtain ih | ih := ih
        · exact h.closed hlow _ ih _ hstep
        · exact .inr (h.sound.groups.next_mem ih hstep)
    obtain ⟨w, hw, huw⟩ := h.back u hu
    obtain rfl | hw := List.mem_cons.mp hw
    · exact huw
    · -- what lies below `v` is neither above it nor given out
      have hnodup := h.sound.nodup
      rw [Search.entered, h.stack, stack_push, ← List.singleton_append, ← List.append_assoc,
        List.append_assoc (above ++ [v])] at hnodup
      obtain ⟨-, hrest, hdisjoint⟩ := List.nodup_append'.mp hnodup
      obtain hmem | hmem := hinside huw
      · exact absurd (List.mem_append_left _ hw) (hdisjoint hmem)
      · exact absurd hmem ((List.nodup_append'.mp hrest).2.2 hw)
  · rw [List.mem_singleton.mp hu]
    exact ⟨.refl, .refl⟩

/-- They are a component. -/
theorem close (h : Explored next n (s.push v) (v :: next v) above t low)
    (hlow : s.stack.length ≤ low) (hfresh : v ∉ s.entered) :
    Explored next n s [v] [] (t.close s.stack.length) s.stack.length := by
  have hstack : t.stack = (above ++ [v]) ++ s.stack := by
    rw [h.stack, stack_push, List.append_assoc, List.singleton_append]
  -- closing moves nodes from the stack into a component and loses none
  have hperm : (Search.entered ⟨s.stack, (above ++ [v]) :: t.groups⟩).Perm t.entered := by
    rw [Search.entered, Search.entered, hstack, List.flatten_cons, ← List.append_assoc]
    exact List.perm_append_comm.append_right _
  have hmem (w : Nat) : w ∈ Search.entered ⟨s.stack, (above ++ [v]) :: t.groups⟩ ↔ w ∈ t.entered :=
    hperm.mem_iff
  rw [close_eq hstack]
  have hsound : Sound next n ⟨s.stack, (above ++ [v]) :: t.groups⟩ := by
    constructor
    · exact hperm.nodup_iff.mpr h.sound.nodup
    · exact fun w hw => h.sound.inside w ((hmem w).mp hw)
    · exact (List.pairwise_append.mp (hstack ▸ h.sound.stack)).2.1
    · -- all of them lead to each other by way of `v`
      refine .cons (by simp) (fun u hu w hw => ?_) (h.closed hlow) h.sound.groups
      exact (h.connected hlow u hu).1.trans (h.connected hlow w hw).2
  constructor
  case sound =>
    exact hsound
  case stack =>
    rfl
  case groups =>
    exact h.groups.trans (List.suffix_cons _ _)
  case entered =>
    intro w hw
    rw [List.mem_singleton.mp hw, hmem]
    exact h.entered_of_mem List.mem_cons_self
  case finished =>
    simp
  case back =>
    simp
  case reached =>
    exact fun hlt => absurd hlt (Nat.lt_irrefl _)
  case nodes_low =>
    intro w hw hold
    rw [List.mem_singleton.mp hw] at hold
    exact absurd (List.mem_append_left _ hold) hfresh
  case above_low =>
    simp

end Explored

/-! ## A whole search -/

/-- What a visit has to do, as long as no more than `depth` nodes are left to enter. -/
def Visits (next : Nat → List Nat) (n depth : Nat) (visit : Search → Nat → Search × Nat) : Prop :=
  ∀ s v, s.Sound next n → v < n → (∀ u ∈ s.stack, Leads next u v) →
    n ≤ s.entered.length + depth →
    ∃ above, Explored next n s [v] above (visit s v).1 (visit s v).2

/-- By induction on the nodes to visit: each stretch goes on where the one before it ended. -/
theorem Visits.foldl {visit : Search → Nat → Search × Nat} {depth : Nat}
    (hvisit : Visits next n depth visit) (h : Explored next n s nodes above t low)
    (hdepth : n ≤ s.entered.length + depth) (rest : List Nat) (hrest : ∀ v ∈ rest, v < n)
    (hleads : ∀ v ∈ rest, ∀ u ∈ s.stack, Leads next u v) :
    ∃ above, Explored next n s (nodes ++ rest) above (rest.foldl (proceed visit) (t, low)).1
      (rest.foldl (proceed visit) (t, low)).2 := by
  induction rest generalizing nodes above t low with
  | nil => exact ⟨above, by simpa using h⟩
  | cons v rest ih =>
    obtain ⟨hv, hrest⟩ := List.forall_mem_cons.mp hrest
    obtain ⟨hv_leads, hleads⟩ := List.forall_mem_cons.mp hleads
    have hroom := h.length_le
    obtain ⟨higher, h'⟩ := hvisit t v h.sound hv (h.leads hv_leads) (by omega)
    obtain ⟨all, hall⟩ := ih (h.append h') hrest hleads
    rw [List.append_assoc, List.singleton_append] at hall
    exact ⟨all, hall⟩

/-- By induction on the depth: a node that is visited has its neighbours visited one level down. -/
theorem visits_visit (hnext : ∀ u, ∀ v ∈ next u, v < n) (depth : Nat) :
    Visits next n depth (visit next depth) := by
  induction depth with
  | zero =>
    intro s v hs hv hleads hdepth
    have hentered : v ∈ s.entered := by
      by_contra hfresh
      have := hs.length_lt hv hfresh
      omega
    exact ⟨[], .of_entered hs hentered⟩
  | succ depth ih =>
    intro s v hs hv hleads hdepth
    rw [visit]
    by_cases hentered : v ∈ s.entered
    · rw [if_pos hentered]
      exact ⟨[], .of_entered hs hentered⟩
    · rw [if_neg hentered]
      have hpush := hs.push hv hentered hleads
      have hnew : ∀ w ∈ next v, ∀ u ∈ (s.push v).stack, Leads next u w := by
        intro w hw u hu
        obtain rfl | hu := List.mem_cons.mp hu
        · exact .single hw
        · exact (hleads u hu).tail hw
      -- the search from `v` begins where `v` itself has just been entered
      have hbegin := Explored.of_entered hpush (v := v) List.mem_cons_self
      have hplace : (s.push v).place v = s.stack.length := by
        rw [place, stack_push, List.reverse_cons, List.idxOf_append_of_notMem, List.length_reverse,
          List.idxOf_cons_self, Nat.add_zero]
        exact fun hmem => hentered (List.mem_append_left _ (List.mem_reverse.mp hmem))
      rw [hplace] at hbegin
      obtain ⟨above, h⟩ := ih.foldl hbegin (by rw [entered_push, List.length_cons]; omega) (next v)
        (hnext v) hnew
      dsimp only
      split
      · rename_i hlow
        exact ⟨_, h.stay hlow hentered⟩
      · rename_i hlow
        exact ⟨_, h.close (Nat.le_of_not_lt hlow) hentered⟩

end Search

/-- Where edges lead to nodes only, the components are settled and hold every node once. -/
theorem DependencyGraph.components_settled {g : DependencyGraph}
    (hnext : ∀ u, ∀ v ∈ g.successors u, v < g.size) :
    ∃ groups, g.components = groups.reverse ∧ Settled g.successors groups ∧
      groups.flatten.Perm (List.range g.size) := by
  obtain ⟨above, h⟩ := (Search.visits_visit hnext g.size).foldl
    (.nil Search.sound_start (Nat.le_refl _)) (by omega) (List.range g.size)
    (fun v hv => List.mem_range.mp hv) (fun v _ u hu => absurd hu List.not_mem_nil)
  -- nothing stays on the stack, for there is nothing below to lead back to
  obtain rfl : above = [] := List.eq_nil_iff_forall_not_mem.mpr fun u hu => by
    obtain ⟨v, hv, -⟩ := h.back u hu
    exact absurd hv List.not_mem_nil
  refine ⟨_, rfl, h.sound.groups, ?_⟩
  have hnodup := h.sound.nodup
  have hinside := h.sound.inside
  have hentered := h.entered
  rw [Search.entered, h.stack] at hnodup hinside hentered
  exact (List.perm_ext_iff_of_nodup hnodup List.nodup_range).mpr fun v =>
    ⟨fun hv => List.mem_range.mpr (hinside v hv), fun hv => hentered v hv⟩

end BindingIdl
