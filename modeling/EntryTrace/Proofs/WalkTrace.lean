import EntryTrace.Tree.Visitor
import Mathlib.Data.List.Basic

/-!
# What a visitor is told

A walk tells every visitor of the moments of the trace, one after another, and of nothing else. In
the trace each node that is left is the last one that is still open, so the trace nests as the nodes
do: from the kinds in it alone the ordered trees of kinds can be read back.
-/

namespace EntryTrace

set_option autoImplicit false

/-- Lists that correspond under one pair of functions correspond under every other pair that goes
with it. -/
theorem map_eq_of_map_eq {α β γ : Type} {f g : α → β} {f' g' : α → γ} {as bs : List α}
    (h : ∀ a ∈ as, ∀ b, f a = g b → f' a = g' b) (heq : as.map f = bs.map g) :
    as.map f' = bs.map g' := by
  induction as generalizing bs with
  | nil =>
    obtain rfl : bs = [] := by simpa using heq.symm
    rfl
  | cons a as ih =>
    cases bs with
    | nil => simp at heq
    | cons b bs =>
      obtain ⟨hhead, htail⟩ := List.cons.inj heq
      rw [List.map_cons, List.map_cons, h a List.mem_cons_self b hhead,
        ih (fun c hc => h c (List.mem_cons_of_mem a hc)) htail]

/-- An ordered tree of labels. -/
inductive Rose (α : Type) where
  | node (label : α) (below : List (Rose α))

/-- The tree with a label in place of every node. -/
def Node.rose {α : Type} (label : Node → α) (n : Node) : Rose α :=
  n.fold fun (own : Node) (form : Form (Rose α)) => .node (label own) form.children

theorem Node.rose_eq {α : Type} (label : Node → α) (n : Node) :
    n.rose label = .node (label n) (n.children.map (rose label)) := by
  unfold rose
  rw [fold_eq, Form.children_map]
  rfl

/-! ### The trace -/

namespace Moment

variable {α : Type}

def entered? : Moment α → Option α
  | enter a => some a
  | leave _ => none

def left? : Moment α → Option α
  | enter _ => none
  | leave a => some a

@[simp] theorem entered?_enter (a : α) : (enter a).entered? = some a := rfl

@[simp] theorem entered?_leave (a : α) : (leave a).entered? = none := rfl

@[simp] theorem left?_enter (a : α) : (enter a).left? = none := rfl

@[simp] theorem left?_leave (a : α) : (leave a).left? = some a := rfl

end Moment

namespace Node

theorem entered_trace (n : Node) : n.trace.filterMap Moment.entered? = n.preorder := by
  induction n using Node.induction with
  | step n ih =>
    rw [trace_eq, preorder_eq, ← List.flatMap_congr ih, ← List.filterMap_flatMap]
    simp

theorem left_trace (n : Node) : n.trace.filterMap Moment.left? = n.postorder := by
  induction n using Node.induction with
  | step n ih =>
    rw [trace_eq, postorder_eq, ← List.flatMap_congr ih, ← List.filterMap_flatMap]
    simp [List.filterMap_cons]

theorem length_flatMap_trace {ns : List Node}
    (h : ∀ n ∈ ns, n.trace.length = 2 * n.preorder.length) :
    (ns.flatMap trace).length = 2 * (ns.flatMap preorder).length := by
  induction ns with
  | nil => rfl
  | cons n ns ih =>
    have hn := h n List.mem_cons_self
    have hns := ih fun m hm => h m (List.mem_cons_of_mem n hm)
    rw [List.flatMap_cons, List.flatMap_cons, List.length_append, List.length_append, hn, hns]
    omega

theorem length_trace (n : Node) : n.trace.length = 2 * n.preorder.length := by
  induction n using Node.induction with
  | step n ih =>
    have hchildren := length_flatMap_trace ih
    rw [trace_eq, preorder_eq, List.length_cons, List.length_append, hchildren,
      List.length_singleton, List.length_cons]
    omega

/-- The nodes that are open after some moments, the one entered last in front. There is no answer
when a node is left that is not the one in front. -/
def openAfter : List Node → List (Moment Node) → Option (List Node)
  | stack, [] => some stack
  | stack, .enter n :: moments => openAfter (n :: stack) moments
  | [], .leave _ :: _ => none
  | last :: stack, .leave n :: moments => if last = n then openAfter stack moments else none

theorem openAfter_flatMap_trace {ns : List Node}
    (h : ∀ n ∈ ns, ∀ stack later, openAfter stack (n.trace ++ later) = openAfter stack later)
    (stack : List Node) (later : List (Moment Node)) :
    openAfter stack (ns.flatMap trace ++ later) = openAfter stack later := by
  induction ns with
  | nil => rfl
  | cons n ns ih =>
    rw [List.flatMap_cons, List.append_assoc, h n List.mem_cons_self,
      ih fun m hm => h m (List.mem_cons_of_mem n hm)]

/-- The walk over a tree closes all that it opens and nothing else. -/
theorem openAfter_trace (n : Node) (stack : List Node) (later : List (Moment Node)) :
    openAfter stack (n.trace ++ later) = openAfter stack later := by
  induction n using Node.induction generalizing stack later with
  | step n ih =>
    rw [trace_eq, List.cons_append, openAfter, List.append_assoc, openAfter_flatMap_trace ih,
      List.singleton_append, openAfter, if_pos rfl]

end Node

/-! ### Reading the kinds back -/

theorem Kind.phrase_injective {a b : Kind} (h : a.phrase = b.phrase) : a = b := by
  have hfound (k : Kind) : all.find? (fun other => other.phrase == k.phrase) = some k := by
    cases k <;> decide
  have ha := hfound a
  rw [h, hfound b] at ha
  exact (Option.some.inj ha).symm

theorem Moment.mark_injective {a b : Moment Kind} (h : a.mark = b.mark) : a = b := by
  have hchars := congrArg String.toList h
  cases a <;> cases b <;> simp only [mark, String.toList_append] at hchars
  case enter.enter j k =>
    rw [Kind.phrase_injective (String.toList_inj.mp (List.append_cancel_left hchars))]
  case leave.leave j k =>
    rw [Kind.phrase_injective (String.toList_inj.mp (List.append_cancel_left hchars))]
  all_goals exact absurd (congrArg List.head? hchars) (by simp)

namespace Node

/-- The trace of several trees, with the kinds of the nodes only. -/
def kindTrace (ns : List Node) : List (Moment Kind) := (ns.flatMap trace).map (Moment.map kind)

theorem kindTrace_cons (n : Node) (ns : List Node) :
    kindTrace (n :: ns) =
      .enter n.kind :: (kindTrace n.children ++ .leave n.kind :: kindTrace ns) := by
  unfold kindTrace
  rw [List.flatMap_cons, trace_eq]
  simp [Moment.map]

theorem kindTrace_eq_flatten (ns : List Node) :
    kindTrace ns = (ns.map fun n => kindTrace [n]).flatten := by
  simp [kindTrace, List.flatMap_def, Function.comp_def]

/-- No node is entered at the first of the moments. -/
def StartsClosed (moments : List (Moment Kind)) : Prop := ∀ k, moments.head? ≠ some (.enter k)

theorem startsClosed_leave (k : Kind) (moments : List (Moment Kind)) :
    StartsClosed (.leave k :: moments) := by
  intro j h
  simp at h

theorem not_startsClosed_kindTrace_cons {n : Node} {ns : List Node} {later : List (Moment Kind)} :
    ¬ StartsClosed (kindTrace (n :: ns) ++ later) := by
  intro h
  rw [kindTrace_cons] at h
  exact h n.kind rfl

/-- What is left of the trace behind one tree, or behind several, shows where they end. -/
theorem kinds_eq_of_members {ns : List Node}
    (h : ∀ n ∈ ns, ∀ m later later',
      kindTrace [n] ++ later = kindTrace [m] ++ later' → n.rose kind = m.rose kind ∧ later = later')
    {ms : List Node} {later later' : List (Moment Kind)} (hlater : StartsClosed later)
    (hlater' : StartsClosed later') (heq : kindTrace ns ++ later = kindTrace ms ++ later') :
    ns.map (rose kind) = ms.map (rose kind) ∧ later = later' := by
  induction ns generalizing ms with
  | nil =>
    cases ms with
    | nil => exact ⟨rfl, heq⟩
    | cons m ms =>
      have hstarts : later = kindTrace (m :: ms) ++ later' := heq
      exact absurd (hstarts ▸ hlater) not_startsClosed_kindTrace_cons
  | cons n ns ih =>
    cases ms with
    | nil =>
      have hstarts : kindTrace (n :: ns) ++ later = later' := heq
      exact absurd (hstarts ▸ hlater') not_startsClosed_kindTrace_cons
    | cons m ms =>
      have hsplit (k : Node) (ks : List Node) :
          kindTrace (k :: ks) = kindTrace [k] ++ kindTrace ks := by
        simp [kindTrace]
      rw [hsplit n, hsplit m, List.append_assoc, List.append_assoc] at heq
      obtain ⟨hhead, hothers⟩ := h n List.mem_cons_self m _ _ heq
      obtain ⟨htail, hrest⟩ := ih (fun k hk => h k (List.mem_cons_of_mem n hk)) hothers
      exact ⟨by rw [List.map_cons, List.map_cons, hhead, htail], hrest⟩

theorem kinds_eq_of_kindTrace {n m : Node} {later later' : List (Moment Kind)}
    (h : kindTrace [n] ++ later = kindTrace [m] ++ later') :
    n.rose kind = m.rose kind ∧ later = later' := by
  induction n using Node.induction generalizing m later later' with
  | step n ih =>
    rw [kindTrace_cons, kindTrace_cons, List.cons_append, List.cons_append, List.append_assoc,
      List.append_assoc] at h
    obtain ⟨hkind, hinner⟩ := List.cons.inj h
    -- the two nodes are left where the traces of their children end
    obtain ⟨hchildren, hrest⟩ := kinds_eq_of_members (fun c hc m later later' => ih c hc)
      (startsClosed_leave _ _) (startsClosed_leave _ _) hinner
    rw [rose_eq, rose_eq kind m, Moment.enter.inj hkind, hchildren]
    exact ⟨rfl, (List.cons.inj hrest).2⟩

theorem kindTrace_eq_of_kinds {n m : Node} (h : n.rose kind = m.rose kind) :
    kindTrace [n] = kindTrace [m] := by
  induction n using Node.induction generalizing m with
  | step n ih =>
    rw [rose_eq, rose_eq kind m] at h
    obtain ⟨hkind, hchildren⟩ := Rose.node.inj h
    have hbelow := map_eq_of_map_eq (fun c hc m => ih c hc) hchildren
    rw [kindTrace_cons, kindTrace_cons, hkind, kindTrace_eq_flatten, hbelow, ← kindTrace_eq_flatten]

/-- The trace of kinds and the ordered trees of kinds determine each other. -/
theorem kindTrace_eq_iff {ns ms : List Node} :
    kindTrace ns = kindTrace ms ↔ ns.map (rose kind) = ms.map (rose kind) := by
  constructor
  · intro h
    have hclosed : StartsClosed [] := by
      intro k hk
      simp at hk
    exact (kinds_eq_of_members (fun n _ m later later' => kinds_eq_of_kindTrace) hclosed hclosed
      (congrArg (· ++ []) h)).1
  · intro h
    have hall := map_eq_of_map_eq (fun n _ m => kindTrace_eq_of_kinds) h
    rw [kindTrace_eq_flatten, hall, ← kindTrace_eq_flatten]

end Node

/-! ### Visitors see the trace -/

namespace Visitor

variable {σ : Type}

/-- What the visitor does at a moment. -/
def meet (v : Visitor σ) (s : σ) : Moment Node → σ
  | .enter n => v.enter n s
  | .leave n => v.leave n s

theorem walkAll_eq_of_members (v : Visitor σ) {ns : List Node}
    (h : ∀ n ∈ ns, ∀ s, v.walk n s = n.trace.foldl v.meet s) (s : σ) :
    v.walkAll ns s = (ns.flatMap Node.trace).foldl v.meet s := by
  induction ns generalizing s with
  | nil => rfl
  | cons n ns ih =>
    rw [walkAll_cons, List.flatMap_cons, List.foldl_append, h n List.mem_cons_self,
      ih fun m hm => h m (List.mem_cons_of_mem n hm)]

theorem walk_eq_foldl (v : Visitor σ) (n : Node) (s : σ) :
    v.walk n s = n.trace.foldl v.meet s := by
  induction n using Node.induction generalizing s with
  | step n ih =>
    rw [walk_eq, v.walkAll_eq_of_members ih, Node.trace_eq, List.foldl_cons, List.foldl_append]
    rfl

/-- A visitor meets the moments of the trace, in order. -/
theorem walkAll_eq_foldl (v : Visitor σ) (ns : List Node) (s : σ) :
    v.walkAll ns s = (ns.flatMap Node.trace).foldl v.meet s :=
  v.walkAll_eq_of_members (fun n _ => v.walk_eq_foldl n) s

/-- A visitor that only ever adds to a list ends with what it adds at each moment. -/
theorem walkAll_eq_append {α : Type} {v : Visitor (List α)} {added : Moment Node → List α}
    (h : ∀ moment items, v.meet items moment = items ++ added moment) (ns : List Node)
    (items : List α) : v.walkAll ns items = items ++ (ns.flatMap Node.trace).flatMap added := by
  rw [walkAll_eq_foldl]
  induction ns.flatMap Node.trace generalizing items with
  | nil => simp
  | cons moment moments ih =>
    rw [List.foldl_cons, h, ih, List.flatMap_cons, List.append_assoc]

theorem walkAll_recorder (ns : List Node) : recorder.walkAll ns [] = ns.flatMap Node.trace := by
  have hadded : ∀ moment items, recorder.meet items moment = items ++ [moment] := by
    intro moment items
    cases moment <;> rfl
  rw [walkAll_eq_append hadded, List.nil_append, List.flatMap_singleton']

theorem walkAll_marks (ns : List Node) :
    marks.walkAll ns [] = (Node.kindTrace ns).map Moment.mark := by
  have hadded : ∀ moment items,
      marks.meet items moment = items ++ [(moment.map Node.kind).mark] := by
    intro moment items
    cases moment <;> rfl
  rw [walkAll_eq_append hadded, List.nil_append, Node.kindTrace, List.map_map, List.map_eq_flatMap]
  rfl

theorem walkAll_labelCollector (ns : List Node) :
    labelCollector.walkAll ns [] = ns.flatMap Node.labelNames := by
  have hadded : ∀ moment items, labelCollector.meet items moment =
      items ++ (moment.entered?.bind Node.labelName?).toList := by
    intro moment items
    cases moment with
    | enter n => rfl
    | leave n => exact (List.append_nil items).symm
  have hlabels (moments : List (Moment Node)) :
      moments.flatMap (fun moment => (moment.entered?.bind Node.labelName?).toList) =
        (moments.filterMap Moment.entered?).filterMap Node.labelName? := by
    induction moments with
    | nil => rfl
    | cons moment moments ih =>
      rw [List.flatMap_cons, ih]
      cases moment with
      | enter n => cases h : n.labelName? <;> simp [h]
      | leave n => rfl
  rw [walkAll_eq_append hadded, List.nil_append, hlabels, List.filterMap_flatMap,
    List.filterMap_flatMap]
  simp only [Node.entered_trace]
  rfl

theorem walk_labelCollector (n : Node) : labelCollector.walk n [] = n.labelNames := by
  have hlabels := walkAll_labelCollector [n]
  rwa [List.flatMap_singleton] at hlabels

end Visitor

/-! ### Counting -/

namespace Tally

theorem count_add (t : Tally) (kind other : Kind) :
    (t.add kind).count other = t.count other + if kind = other then 1 else 0 := by
  unfold count add
  induction t.entries with
  | nil =>
    rw [raise, List.lookup_cons]
    by_cases h : other = kind
    · simp [h]
    · simp [beq_false_of_ne h, Ne.symm h]
  | cons entry entries ih =>
    rcases entry with ⟨k, number⟩
    rw [raise]
    split
    · rename_i hk
      subst hk
      rw [List.lookup_cons, List.lookup_cons]
      by_cases h : other = k
      · simp [h]
      · simp [beq_false_of_ne h, Ne.symm h]
    · rename_i hk
      rw [List.lookup_cons, List.lookup_cons]
      by_cases h : other = k
      · simp [h, Ne.symm hk]
      · simpa [beq_false_of_ne h] using ih

theorem total_add (t : Tally) (kind : Kind) : (t.add kind).total = t.total + 1 := by
  unfold total add
  induction t.entries with
  | nil => rfl
  | cons entry entries ih =>
    rcases entry with ⟨k, number⟩
    rw [raise]
    split
    · rw [List.foldr_cons, List.foldr_cons]
      omega
    · rw [List.foldr_cons, List.foldr_cons, ih]
      omega

end Tally

namespace Visitor

/-- At each moment the counter adds the node that is entered, if one is. -/
theorem foldl_counter (moments : List (Moment Node)) (t : Tally) :
    (∀ kind, (moments.foldl counter.meet t).count kind =
      t.count kind + (moments.filterMap Moment.entered?).countP fun n => n.kind == kind) ∧
    (moments.foldl counter.meet t).total = t.total + (moments.filterMap Moment.entered?).length := by
  induction moments generalizing t with
  | nil => simp
  | cons moment moments ih =>
    cases moment with
    | enter n =>
      obtain ⟨hcount, htotal⟩ := ih (t.add n.kind)
      have hstep : (Moment.enter n :: moments).foldl counter.meet t =
          moments.foldl counter.meet (t.add n.kind) := rfl
      have hentered : (Moment.enter n :: moments).filterMap Moment.entered? =
          n :: moments.filterMap Moment.entered? := rfl
      rw [hstep, hentered]
      refine ⟨?_, ?_⟩
      · intro kind
        rw [hcount, Tally.count_add, List.countP_cons]
        simp only [beq_iff_eq]
        omega
      · rw [htotal, Tally.total_add, List.length_cons]
        omega
    | leave n => exact ih t

/-- The counter counts the nodes of each kind, and all of them. -/
theorem walkAll_counter (ns : List Node) :
    (∀ kind, (counter.walkAll ns {}).count kind =
      (ns.flatMap Node.preorder).countP fun n => n.kind == kind) ∧
    (counter.walkAll ns {}).total = (ns.flatMap Node.preorder).length := by
  have hcounted := foldl_counter (ns.flatMap Node.trace) {}
  simp only [List.filterMap_flatMap, Node.entered_trace, ← walkAll_eq_foldl] at hcounted
  refine ⟨?_, hcounted.2.trans (Nat.zero_add _)⟩
  intro kind
  exact (hcounted.1 kind).trans (Nat.zero_add _)

theorem count_walk_counter (n : Node) (kind : Kind) :
    (counter.walk n {}).count kind = n.count kind := by
  have hcount := (walkAll_counter [n]).1 kind
  rwa [List.flatMap_singleton] at hcount

theorem total_walk_counter (n : Node) : (counter.walk n {}).total = n.size := by
  have htotal := (walkAll_counter [n]).2
  rwa [List.flatMap_singleton] at htotal

/-- The walk is told apart by its marks exactly as far as the kinds of the nodes and their order go,
and the counter counts the nodes that there are. -/
theorem walkAll_faithful (ns : List Node) :
    Node.openAfter [] (recorder.walkAll ns []) = some [] ∧
    (recorder.walkAll ns []).filterMap Moment.entered? = ns.flatMap Node.preorder ∧
    (recorder.walkAll ns []).filterMap Moment.left? = ns.flatMap Node.postorder ∧
    (∀ ms, marks.walkAll ns [] = marks.walkAll ms [] ↔
      ns.map (Node.rose Node.kind) = ms.map (Node.rose Node.kind)) ∧
    (∀ kind, (counter.walkAll ns {}).count kind =
      (ns.flatMap Node.preorder).countP fun n => n.kind == kind) ∧
    (counter.walkAll ns {}).total = (ns.flatMap Node.preorder).length ∧
    2 * (counter.walkAll ns {}).total = (marks.walkAll ns []).length := by
  obtain ⟨hcount, htotal⟩ := walkAll_counter ns
  rw [walkAll_recorder]
  refine ⟨?_, ?_, ?_, ?_, hcount, htotal, ?_⟩
  · have hclosed : Node.openAfter [] (ns.flatMap Node.trace ++ []) = Node.openAfter [] [] :=
      Node.openAfter_flatMap_trace (fun n _ => n.openAfter_trace) [] []
    rwa [List.append_nil] at hclosed
  · simp only [List.filterMap_flatMap, Node.entered_trace]
  · simp only [List.filterMap_flatMap, Node.left_trace]
  · intro ms
    rw [walkAll_marks, walkAll_marks, ← Node.kindTrace_eq_iff]
    exact List.map_inj_right fun _ _ => Moment.mark_injective
  · rw [htotal, walkAll_marks, List.length_map, Node.kindTrace, List.length_map,
      Node.length_flatMap_trace fun n _ => n.length_trace]

end Visitor

end EntryTrace
