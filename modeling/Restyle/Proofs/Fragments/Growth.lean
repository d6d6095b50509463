import Mathlib.Logic.Function.Basic
import Restyle.Proofs.Fragments.Sequence

/-!
Contract: sequences that grow by commands.

Owns: `Growth`, a kind of sequences with what can be done to them; `Command` and
`Growth.run`, a run of commands to several sequences, all empty at first;
`Growth.Related.run`, by which two kinds of sequences that are related before and
after each command are related after every run; `Fragments.sequence`, the items of
fragments as a sequence; and that fragments grow as their items do, which are
normal after every run.
-/

namespace Restyle.Fragments

/-- A kind of sequences: the empty one, a sequence with something added and the
index that is given to a slot, and a sequence with another one spliced in. -/
structure Growth (σ : Type) where
  empty : σ
  add : σ → Addition → Option Nat × σ
  splice : σ → σ → σ

/-- What is done to one of several sequences: something is added to it, or another
one is spliced in. -/
inductive Command (Name : Type) where
  | add (target : Name) (addition : Addition)
  | splice (target other : Name) (apart : target ≠ other)

namespace Growth

variable {σ τ Name : Type} [DecidableEq Name]

def perform (growth : Growth σ) (store : Name → σ) : Command Name → Option Nat × (Name → σ)
  | .add target addition =>
    let (answer, grown) := growth.add (store target) addition
    (answer, Function.update store target grown)
  | .splice target other _ =>
    (none, Function.update store target (growth.splice (store target) (store other)))

def run (growth : Growth σ) (commands : List (Command Name)) : Name → σ :=
  commands.foldl (fun store command => (growth.perform store command).2) fun _ => growth.empty

/-- Two kinds of sequences, related when they are empty and after everything that
is done to related ones. -/
structure Related (growth : Growth σ) (other : Growth τ) (relation : σ → τ → Prop) : Prop where
  empty : relation growth.empty other.empty
  add : ∀ left right addition, relation left right →
    relation (growth.add left addition).2 (other.add right addition).2
  splice : ∀ left right inner otherInner, relation left right → relation inner otherInner →
    relation (growth.splice left inner) (other.splice right otherInner)

theorem Related.perform
    {growth : Growth σ}
    {other : Growth τ}
    {relation : σ → τ → Prop}
    (related : Related growth other relation)
    {store : Name → σ}
    {otherStore : Name → τ}
    (before : ∀ name, relation (store name) (otherStore name))
    (command : Command Name)
    (name : Name) :
    relation ((growth.perform store command).2 name)
      ((other.perform otherStore command).2 name) := by
  cases command with
  | add target addition =>
    by_cases isTarget : name = target
    · subst isTarget
      simpa [Growth.perform] using related.add _ _ addition (before name)
    · simpa [Growth.perform, isTarget] using before name
  | splice target source apart =>
    by_cases isTarget : name = target
    · subst isTarget
      simpa [Growth.perform] using related.splice _ _ _ _ (before name) (before source)
    · simpa [Growth.perform, isTarget] using before name

/-- What one command keeps, every run keeps. -/
theorem Related.run
    {growth : Growth σ}
    {other : Growth τ}
    {relation : σ → τ → Prop}
    (related : Related growth other relation)
    (commands : List (Command Name))
    (name : Name) :
    relation (growth.run commands name) (other.run commands name) := by
  unfold Growth.run
  have general : ∀ (store : Name → σ) (otherStore : Name → τ),
      (∀ name, relation (store name) (otherStore name)) →
      relation (commands.foldl (fun store command => (growth.perform store command).2) store name)
        (commands.foldl (fun store command => (other.perform store command).2) otherStore name) := by
    induction commands with
    | nil => exact fun _ _ before => before name
    | cons command rest inductionHypothesis =>
      exact fun _ _ before => inductionHypothesis _ _ (related.perform before command)
  exact general _ _ fun _ => related.empty

end Growth

/-! ## Kinds of sequences -/

/-- Sequences that grow item by item. -/
def Sequence.growth : Growth Sequence where
  empty := .empty
  add
    | sequence, .literal text => (none, sequence.addLiteral text)
    | sequence, .slot slot => (some sequence.slotCount, sequence.addSlot slot)
  splice := Sequence.splice

/-- Fragments, which grow by concatenation. -/
def growth : Growth Fragments where
  empty := .empty
  add
    | fragments, .literal text => (none, fragments ++ .literal text)
    | fragments, .slot slot => (some fragments.slotCount, fragments ++ .slot slot)
  splice := (· ++ ·)

/-! ## Fragments as sequences -/

def sequence (fragments : Fragments) : Sequence :=
  ⟨fragments.items, fragments.slotCount⟩

/-- The texts and slots of fragments in order, empty texts included. -/
def additions (fragments : Fragments) : List Addition :=
  .literal fragments.lead :: fragments.rest.flatMap fun part => [.slot part.1, .literal part.2]

/-- The items after a slot: the text behind it, then the slots and texts that
follow. -/
def following (index : Nat) (text : String) : List (Slot × String) → List Item
  | [] => literalItems text
  | part :: rest => .literal text :: restItems index (part :: rest)

private theorem restItems_cons
    (index : Nat)
    (slot : Slot)
    (text : String)
    (rest : List (Slot × String)) :
    restItems index ((slot, text) :: rest) = .slot slot index :: following (index + 1) text rest := by
  cases rest <;> rfl

namespace Sequence

private theorem addSlot_addLiteral
    (init : List Item)
    (own : Slot)
    (index count : Nat)
    (text : String)
    (slot : Slot) :
    ((⟨init ++ [.slot own index], count⟩ : Sequence).addLiteral text).addSlot slot =
      ⟨init ++ [.slot own index] ++ [.literal text] ++ [.slot slot count], count + 1⟩ := by
  by_cases isEmpty : text = ""
  · rw [isEmpty, addLiteral_empty, addSlot_slot]
  · rw [addLiteral_slot isEmpty, addSlot_literal]

private theorem foldl_add_following
    (init : List Item)
    (own : Slot)
    (index count : Nat)
    (text : String)
    (rest : List (Slot × String)) :
    (Addition.literal text :: rest.flatMap fun part => [.slot part.1, .literal part.2]).foldl add
        ⟨init ++ [.slot own index], count⟩ =
      ⟨init ++ [.slot own index] ++ following count text rest, count + rest.length⟩ := by
  induction rest generalizing init own index count text with
  | nil =>
    by_cases isEmpty : text = ""
    · simp [isEmpty, add, addLiteral_empty, following, literalItems]
    · simp [add, addLiteral_slot isEmpty, following, literalItems, isEmpty]
  | cons part rest inductionHypothesis =>
    obtain ⟨slot, next⟩ := part
    have both : ((⟨init ++ [.slot own index], count⟩ : Sequence).add (.literal text)).add (.slot slot) =
        ⟨init ++ [.slot own index] ++ [.literal text] ++ [.slot slot count], count + 1⟩ :=
      addSlot_addLiteral init own index count text slot
    rw [List.flatMap_cons, List.foldl_cons, List.cons_append, List.foldl_cons, both]
    refine (inductionHypothesis _ slot count (count + 1) next).trans ?_
    rw [following, restItems_cons, List.length_cons]
    simp only [List.append_assoc, List.cons_append, List.nil_append, Nat.add_assoc, Nat.add_comm 1]

end Sequence

/-- The items of fragments are what their texts and slots become one by one. -/
theorem sequence_eq_foldl_add (fragments : Fragments) :
    fragments.sequence = fragments.additions.foldl Sequence.add .empty := by
  obtain ⟨lead, rest⟩ := fragments
  have started : Sequence.empty.add (.literal lead) = ⟨literalItems lead, 0⟩ := by
    by_cases isEmpty : lead = ""
    · rw [isEmpty]
      rfl
    · rw [literalItems, if_neg (by simpa using isEmpty)]
      exact Sequence.addLiteral_nil isEmpty 0
  rw [additions, List.foldl_cons, started]
  cases rest with
  | nil => simp [sequence, items, restItems, slotCount]
  | cons part rest =>
    obtain ⟨slot, text⟩ := part
    have slotted : (⟨literalItems lead, 0⟩ : Sequence).add (.slot slot) =
        ⟨literalItems lead ++ [.slot slot 0], 1⟩ := by
      by_cases isEmpty : lead = ""
      · rw [isEmpty]
        rfl
      · rw [literalItems, if_neg (by simpa using isEmpty)]
        rfl
    rw [List.flatMap_cons, List.cons_append, List.foldl_cons, slotted]
    refine Eq.trans ?_ (Sequence.foldl_add_following _ slot 0 1 text rest).symm
    simp only [sequence, items, slotCount, restItems_cons, List.length_cons, List.append_assoc,
      List.singleton_append, Nat.zero_add, Nat.add_comm 1]

/-- The texts and slots of fragments followed by others are added like those of the
former and then those of the latter. -/
theorem foldl_add_append (start : Sequence) (left right : Fragments) :
    (left ++ right).additions.foldl Sequence.add start =
      right.additions.foldl Sequence.add (left.additions.foldl Sequence.add start) := by
  obtain ⟨lead, rest⟩ := left
  induction rest generalizing start lead with
  | nil =>
    change (additions ⟨lead ++ right.lead, right.rest⟩).foldl Sequence.add start = _
    simp only [additions, List.flatMap_nil, List.foldl_cons, List.foldl_nil]
    congr 1
    exact (Sequence.addLiteral_append start lead right.lead).symm
  | cons part rest inductionHypothesis =>
    obtain ⟨slot, text⟩ := part
    exact inductionHypothesis ((start.add (.literal lead)).add (.slot slot)) text

/-- The items of fragments followed by others are those of the former with those of
the latter spliced in. -/
theorem sequence_append (left right : Fragments) :
    (left ++ right).sequence = left.sequence.splice right.sequence := by
  rw [sequence_eq_foldl_add (left ++ right), foldl_add_append, ← sequence_eq_foldl_add left,
    sequence_eq_foldl_add right, Sequence.splice_foldl_add, Sequence.splice_empty]

private theorem sequence_append_literal (fragments : Fragments) (text : String) :
    (fragments ++ literal text).sequence = fragments.sequence.addLiteral text := by
  rw [sequence_eq_foldl_add (fragments ++ literal text), foldl_add_append,
    ← sequence_eq_foldl_add fragments]
  rfl

private theorem sequence_append_slot (fragments : Fragments) (own : Slot) :
    (fragments ++ slot own).sequence = fragments.sequence.addSlot own := by
  rw [sequence_eq_foldl_add (fragments ++ slot own), foldl_add_append,
    ← sequence_eq_foldl_add fragments]
  rfl

/-- A slot that is added is the last item, and its index is the number of slots
before it. -/
theorem getLast?_append_slot (fragments : Fragments) (own : Slot) :
    (fragments ++ slot own).items.getLast? = some (.slot own fragments.slotCount) := by
  have grown := congrArg Sequence.items (sequence_append_slot fragments own)
  change (fragments ++ slot own).items = (fragments.sequence.addSlot own).items at grown
  rw [grown, Sequence.addSlot, List.getLast?_concat]
  rfl

/-! ## Runs -/

section Runs

variable {Name : Type} [DecidableEq Name]

private theorem related_sequence :
    Growth.Related Sequence.growth growth fun items fragments => items = fragments.sequence where
  empty := rfl
  add := by
    rintro _ fragments addition rfl
    cases addition with
    | literal text => exact (sequence_append_literal fragments text).symm
    | slot own => exact (sequence_append_slot fragments own).symm
  splice := by
    rintro _ fragments _ other rfl rfl
    exact (sequence_append fragments other).symm

theorem run_sequence (commands : List (Command Name)) (name : Name) :
    Sequence.growth.run commands name = (growth.run commands name).sequence :=
  related_sequence.run commands name

private theorem related_isNormal :
    Growth.Related Sequence.growth Sequence.growth fun items _ => items.IsNormal where
  empty := Sequence.isNormal_empty
  add := by
    intro items _ addition normal
    cases addition with
    | literal text => exact normal.addLiteral text
    | slot own => exact normal.addSlot own
  splice := fun _ _ other _ normal _ => normal.splice other

/-- After every run of additions and splices on sequences that are empty at first,
hence after each of its steps, each sequence has the items that it gets when it is
put together item by item, and they are normal.  The next slot is given the number
of slots so far for its index. -/
theorem runs_keep_sequences_normal (commands : List (Command Name)) (name : Name) :
    Sequence.growth.run commands name =
        ⟨(growth.run commands name).items, (growth.run commands name).slotCount⟩ ∧
      (growth.run commands name).sequence.IsNormal ∧
      ∀ own, ∃ grown,
        growth.perform (growth.run commands) (.add name (.slot own)) =
          (some (growth.run commands name).slotCount, grown) ∧
        (grown name).items.getLast? = some (.slot own (growth.run commands name).slotCount) := by
  refine ⟨run_sequence commands name, ?_, fun own => ?_⟩
  · rw [← run_sequence]
    exact related_isNormal.run commands name
  · let grown := Function.update (growth.run commands) name (growth.run commands name ++ slot own)
    refine ⟨grown, rfl, ?_⟩
    rw [show grown name = growth.run commands name ++ slot own from Function.update_self ..]
    exact getLast?_append_slot _ own

end Runs

end Restyle.Fragments
