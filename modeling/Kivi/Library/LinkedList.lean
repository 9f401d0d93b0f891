import Mathlib

/-! Doubly linked lists whose nodes keep their identity.
An iterator names a node: it stays valid while other nodes come and go, and is dead
for good once its node is erased, since node names are never used twice. -/
namespace Kivi

/-- The nodes from front to back, each a name and the value it holds. -/
structure LinkedList (α : Type*) where
  nodes : List (ℕ × α)
  fresh : ℕ
  below_fresh : ∀ n ∈ nodes, n.1 < fresh
  nodup : (nodes.map Prod.fst).Nodup

namespace LinkedList

variable {α : Type*}

/-- Operations whose behaviour is undefined. -/
inductive Fault
  | eraseDeadIterator | backOfEmpty | popBackOfEmpty
  deriving DecidableEq

/-- A value-initialised iterator refers to no node. -/
abbrev Iterator := Option ℕ

def empty : LinkedList α := ⟨[],0,by simp,by simp⟩

def values (l : LinkedList α) : List α := l.nodes.map Prod.snd

def size (l : LinkedList α) : ℕ := l.nodes.length

def pushFront (a : α) (l : LinkedList α) : LinkedList α where
  nodes := (l.fresh,a) :: l.nodes
  fresh := l.fresh+1
  below_fresh := by
    intro n hn
    rcases List.mem_cons.mp hn with rfl | hn
    · exact Nat.lt_succ_self _
    · exact Nat.lt_succ_of_lt (l.below_fresh n hn)
  nodup := by
    refine List.nodup_cons.mpr ⟨?_,l.nodup⟩
    intro hmem
    obtain ⟨n,hn,he⟩ := List.mem_map.mp hmem
    exact absurd (l.below_fresh n hn) (by rw [he]; exact lt_irrefl _)

/-- The iterator to the first node; `none` when it equals the end iterator. -/
def begin (l : LinkedList α) : Iterator := l.nodes.head?.map Prod.fst

def restrict (p : ℕ × α → Bool) (l : LinkedList α) : LinkedList α where
  nodes := l.nodes.filter p
  fresh := l.fresh
  below_fresh := fun n hn => l.below_fresh n (List.mem_filter.mp hn).1
  nodup := l.nodup.sublist (List.filter_sublist.map _)

def Live (l : LinkedList α) (it : Iterator) : Prop := ∃ n ∈ l.nodes, it = some n.1

instance (l : LinkedList α) (it : Iterator) : Decidable (l.Live it) :=
  inferInstanceAs (Decidable (∃ n ∈ l.nodes, it = some n.1))

def erase (it : Iterator) (l : LinkedList α) : Except Fault (LinkedList α) :=
  if l.Live it then .ok (l.restrict fun n => decide (some n.1 ≠ it))
  else .error .eraseDeadIterator

def back (l : LinkedList α) : Except Fault α :=
  match l.nodes.getLast? with
  | some n => .ok n.2
  | none => .error .backOfEmpty

def popBack (l : LinkedList α) : Except Fault (LinkedList α) :=
  if l.nodes = [] then .error .popBackOfEmpty
  else .ok
    { nodes := l.nodes.dropLast
      fresh := l.fresh
      below_fresh := fun n hn => l.below_fresh n (List.dropLast_subset _ hn)
      nodup := l.nodup.sublist ((List.dropLast_sublist _).map _) }

def Holds (l : LinkedList α) (it : Iterator) (a : α) : Prop := ∃ n, it = some n ∧ (n,a) ∈ l.nodes

@[simp] theorem values_empty : (empty : LinkedList α).values = [] := rfl
@[simp] theorem size_eq_length (l : LinkedList α) : l.size = l.values.length := by
  simp [size,values]
@[simp] theorem values_pushFront (a : α) (l : LinkedList α) :
    (l.pushFront a).values = a :: l.values := rfl
@[simp] theorem begin_pushFront (a : α) (l : LinkedList α) :
    (l.pushFront a).begin = some l.fresh := rfl

theorem Holds.live {l : LinkedList α} {it : Iterator} {a : α} (h : l.Holds it a) : l.Live it := by
  obtain ⟨n,rfl,hn⟩ := h
  exact ⟨(n,a),hn,rfl⟩

theorem Holds.mem_values {l : LinkedList α} {it : Iterator} {a : α} (h : l.Holds it a) :
    a ∈ l.values := by
  obtain ⟨n,_,hn⟩ := h
  exact List.mem_map.mpr ⟨(n,a),hn,rfl⟩

@[simp] theorem holds_pushFront_begin (a : α) (l : LinkedList α) :
    (l.pushFront a).Holds (l.pushFront a).begin a :=
  ⟨l.fresh,rfl,List.mem_cons_self⟩

theorem Holds.pushFront {l : LinkedList α} {it : Iterator} {a : α} (h : l.Holds it a) (b : α) :
    (l.pushFront b).Holds it a := by
  obtain ⟨n,rfl,hn⟩ := h
  exact ⟨n,rfl,List.mem_cons_of_mem _ hn⟩

/-- Erasing a live node removes its value and leaves every iterator
to a node with another value as it was. -/
theorem erase_spec [DecidableEq α] {l : LinkedList α} {it : Iterator} {a : α}
    (h : l.Holds it a) (hd : l.values.Nodup) :
    ∃ l', l.erase it = .ok l' ∧ l'.values = l.values.filter (fun b => decide (b ≠ a)) ∧
      ∀ jt b, b ≠ a → l.Holds jt b → l'.Holds jt b := by
  refine ⟨_,by rw [erase,if_pos h.live],?_,?_⟩
  · -- values are distinct, so the node at `it` is the only one that holds `a`
    have hp : l.nodes.filter (fun n => decide (some n.1 ≠ it)) =
        l.nodes.filter ((fun b => decide (b ≠ a)) ∘ Prod.snd) := by
      apply List.filter_congr
      rintro ⟨m,b⟩ hm
      obtain ⟨n,rfl,hn⟩ := h
      by_cases hb : b = a
      · subst b
        have he : m = n := congrArg Prod.fst (List.inj_on_of_nodup_map hd hm hn rfl)
        simp [he]
      · have hne : m ≠ n := by
          rintro rfl
          exact hb (congrArg Prod.snd (List.inj_on_of_nodup_map l.nodup hm hn rfl))
        simp [hb,hne]
    simp only [values,restrict,hp,List.filter_map]
  · rintro jt b hb ⟨m,rfl,hm⟩
    refine ⟨m,rfl,List.mem_filter.mpr ⟨hm,?_⟩⟩
    obtain ⟨n,rfl,hn⟩ := h
    have hne : m ≠ n := by
      rintro rfl
      exact hb (congrArg Prod.snd (List.inj_on_of_nodup_map l.nodup hm hn rfl))
    simpa using hne

theorem back_spec {l : LinkedList α} {as : List α} {a : α} (h : l.values = as ++ [a]) :
    l.back = .ok a := by
  have hl : l.nodes.getLast?.map Prod.snd = some a := by
    rw [← List.getLast?_map]
    simpa [values] using congrArg List.getLast? h
  obtain ⟨n,hn,rfl⟩ := Option.map_eq_some_iff.mp hl
  simp [back,hn]

theorem popBack_spec {l : LinkedList α} {as : List α} {a : α} (h : l.values = as ++ [a]) :
    ∃ l', l.popBack = .ok l' ∧ l'.values = as ∧
      ∀ jt b, b ≠ a → l.Holds jt b → l'.Holds jt b := by
  have hne : l.nodes ≠ [] := by
    intro hn
    simp [values,hn] at h
  refine ⟨_,by rw [popBack,if_neg hne],?_,?_⟩
  · simpa [values,List.map_dropLast] using congrArg List.dropLast h
  · rintro jt b hb ⟨m,rfl,hm⟩
    refine ⟨m,rfl,?_⟩
    have hl : (l.nodes.getLast hne).2 = a := by
      have := congrArg List.getLast? h
      simpa [values,List.getLast?_eq_some_getLast hne] using this
    rw [← List.dropLast_append_getLast hne,List.mem_append,List.mem_singleton] at hm
    rcases hm with hm | hm
    · exact hm
    · exact absurd ((congrArg Prod.snd hm).trans hl) hb

end LinkedList
end Kivi
