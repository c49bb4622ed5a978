import Pigfx.Lib.Block

/-!
# A transfer channel that must not be disturbed

While a transfer runs, its descriptors must not be rewritten and the processor must not
touch the memory it works on.  The processor learns of its end when it sees the channel
idle; the transfer itself may end at any moment before.

What a trace has to satisfy for every such moment is what it has to satisfy if the
transfer never ends by itself.  So traces can be composed without regard to time, and
so can the operations that leave them.

## Main definitions

* `Event.busy`, `Exclusive` — the channel along a trace, with the moments of completion.
* `Undisturbed` — the same when nothing completes; `exclusive_forall_iff`.
* `ByCpu`, `Round`, `Guarded` — kinds of traces that compose.
* `Bus.Adds` — an operation leaves a trace of a kind.
-/

namespace Pigfx.Lib

/-! ## The channel -/

namespace Event

/-- An access of the processor. -/
def isCpu : Event → Bool
  | cpuRead _ _ | cpuWrite _ _ => true
  | _ => false

/-- An access of the transfer engine. -/
def isDma : Event → Bool
  | dmaRead _ _ | dmaWrite _ _ => true
  | _ => false

/-- What must not happen while a transfer runs. -/
def disturbs (e : Event) : Bool := e.isCpu || e = dmaSetup

/-- Whether a transfer may run after the event. -/
def busy : Event → Bool → Bool
  | dmaStart, _ => true
  | dmaIdle, _ => false
  | _, b => b

end Event

/-- No event of the trace disturbs a transfer, if the transfer under way completes in front of
the events that `completes` names. -/
def Exclusive (completes : ℕ → Bool) : Bool → List Event → Prop
  | _, [] => True
  | b, e :: es => ¬(b && !completes 0 && e.disturbs) ∧
      Exclusive (fun n => completes (n + 1)) (e.busy (b && !completes 0)) es

/-- No event of the trace disturbs a transfer that completes only when it is seen to be idle. -/
def Undisturbed : Bool → List Event → Prop
  | _, [] => True
  | b, e :: es => ¬(b && e.disturbs) ∧ Undisturbed (e.busy b) es

/-- Whether a transfer may run after the trace. -/
def busyAfter (b : Bool) (es : List Event) : Bool := es.foldl (fun b e => e.busy b) b

instance : ∀ (b : Bool) (es : List Event), Decidable (Undisturbed b es)
  | _, [] => isTrue trivial
  | b, e :: es =>
      have := instDecidableUndisturbed (e.busy b) es
      inferInstanceAs (Decidable (_ ∧ _))

theorem Event.busy_mono {a b : Bool} (h : a → b) (e : Event) : e.busy a → e.busy b := by
  cases e with
  | dmaStart | dmaIdle => exact id
  | _ => exact h

/-- The longer a transfer runs, the more disturbs it. -/
theorem Undisturbed.exclusive {es : List Event} {b : Bool} (h : Undisturbed b es) (completes : ℕ → Bool)
    {a : Bool} (hab : a → b) : Exclusive completes a es := by
  induction es generalizing a b completes with
  | nil => trivial
  | cons e es ih =>
      obtain ⟨hnow, hrest⟩ := h
      have hless : (a && !completes 0) → b := fun ha => hab (by simp_all)
      refine ⟨fun hd => hnow ?_, ih hrest _ (e.busy_mono hless)⟩
      rw [Bool.and_eq_true] at hd ⊢
      exact ⟨hless hd.1, hd.2⟩

theorem exclusive_never {es : List Event} {b : Bool} (h : Exclusive (fun _ => false) b es) :
    Undisturbed b es := by
  induction es generalizing b with
  | nil => trivial
  | cons e es ih =>
      obtain ⟨hnow, hrest⟩ := h
      simp only [Bool.not_false, Bool.and_true] at hnow hrest
      exact ⟨hnow, ih hrest⟩

/-- **The moments of completion do not matter.** -/
theorem exclusive_forall_iff (b : Bool) (es : List Event) :
    (∀ completes, Exclusive completes b es) ↔ Undisturbed b es :=
  ⟨fun h => exclusive_never (h _), fun h completes => h.exclusive completes id⟩

theorem Undisturbed.mono {es : List Event} {a b : Bool} (h : Undisturbed b es) (hab : a → b) :
    Undisturbed a es := exclusive_never (h.exclusive _ hab)

theorem busyAfter_append (b : Bool) (xs ys : List Event) :
    busyAfter b (xs ++ ys) = busyAfter (busyAfter b xs) ys := List.foldl_append

theorem undisturbed_append (b : Bool) (xs ys : List Event) :
    Undisturbed b (xs ++ ys) ↔ Undisturbed b xs ∧ Undisturbed (busyAfter b xs) ys := by
  induction xs generalizing b with
  | nil => simp [Undisturbed, busyAfter]
  | cons e xs ih => simp [Undisturbed, ih, busyAfter, and_assoc]

/-! ## Kinds of traces -/

/-- The processor's accesses alone. -/
def ByCpu (es : List Event) : Prop := ∀ e ∈ es, e.isCpu

/-- The engine's accesses alone. -/
def ByDma (es : List Event) : Prop := ∀ e ∈ es, e.isDma

/-- Begun with an idle channel, the trace disturbs nothing. -/
abbrev Opening (es : List Event) : Prop := Undisturbed false es

/-- Begun with an idle channel, the trace disturbs nothing and leaves the channel idle. -/
structure Round (es : List Event) : Prop where
  undisturbed : Undisturbed false es
  idle : busyAfter false es = false

/-- The trace disturbs nothing whatever it finds. -/
abbrev Guarded (es : List Event) : Prop := Undisturbed true es

section Kinds
variable {xs ys : List Event}

theorem byCpu_nil : ByCpu [] := by simp [ByCpu]

theorem ByCpu.append (hx : ByCpu xs) (hy : ByCpu ys) : ByCpu (xs ++ ys) := by
  intro e he
  exact (List.mem_append.mp he).elim (hx e) (hy e)

theorem ByCpu.round (h : ByCpu xs) : Round xs := by
  induction xs with
  | nil => exact ⟨trivial, rfl⟩
  | cons e es ih =>
      obtain ⟨hu, hi⟩ := ih fun e' he' => h e' (List.mem_cons_of_mem _ he')
      have hcpu := h e List.mem_cons_self
      have hbusy : e.busy false = false := by cases e <;> simp_all [Event.busy, Event.isCpu]
      refine ⟨⟨by simp, ?_⟩, ?_⟩
      · rw [hbusy]; exact hu
      · rw [busyAfter, List.foldl_cons, hbusy]; exact hi

theorem byDma_nil : ByDma [] := by simp [ByDma]

theorem ByDma.append (hx : ByDma xs) (hy : ByDma ys) : ByDma (xs ++ ys) := by
  intro e he
  exact (List.mem_append.mp he).elim (hx e) (hy e)

theorem ByDma.guarded (h : ByDma xs) : Guarded xs := by
  induction xs with
  | nil => trivial
  | cons e es ih =>
      have hrest := ih fun e' he' => h e' (List.mem_cons_of_mem _ he')
      have hdma := h e List.mem_cons_self
      refine ⟨?_, hrest.mono (by simp)⟩
      cases e <;> simp_all [Event.isDma, Event.disturbs, Event.isCpu]

theorem ByDma.busyAfter (h : ByDma xs) (b : Bool) : busyAfter b xs = b := by
  induction xs generalizing b with
  | nil => rfl
  | cons e es ih =>
      have hbusy : e.busy b = b := by
        have hdma := h e List.mem_cons_self
        cases e <;> simp_all [Event.isDma, Event.busy]
      rw [Lib.busyAfter, List.foldl_cons, hbusy]
      exact ih (fun e' he' => h e' (List.mem_cons_of_mem _ he')) b

theorem round_nil : Round [] := byCpu_nil.round

theorem Round.append (hx : Round xs) (hy : Round ys) : Round (xs ++ ys) := by
  refine ⟨(undisturbed_append _ _ _).mpr ⟨hx.undisturbed, ?_⟩, ?_⟩
  · rw [hx.idle]; exact hy.undisturbed
  · rw [busyAfter_append, hx.idle]; exact hy.idle

/-- After a trace that ends idle another one may begin. -/
theorem Round.opening (hx : Round xs) (hy : Opening ys) : Opening (xs ++ ys) := by
  refine (undisturbed_append _ _ _).mpr ⟨hx.undisturbed, ?_⟩
  rw [hx.idle]
  exact hy

/-- What begins by waiting for the channel may follow anything. -/
theorem guarded_wait (hy : Opening ys) : Guarded (.dmaIdle :: ys) := ⟨by decide, hy⟩

theorem Guarded.append (hx : Guarded xs) (hy : Guarded ys) : Guarded (xs ++ ys) :=
  (undisturbed_append _ _ _).mpr ⟨hx, hy.mono (by simp)⟩

/-- A transfer is waited for before the processor goes on. -/
theorem round_wait (hx : Opening xs) (hy : Round ys) : Round (xs ++ .dmaIdle :: ys) := by
  refine ⟨(undisturbed_append _ _ _).mpr ⟨hx, ?_⟩, ?_⟩
  · exact (guarded_wait hy.undisturbed).mono (by simp)
  · rw [busyAfter_append]
    exact hy.idle

end Kinds

/-! ## Operations -/

/-- Between two moments, events of a kind are added to the trace. -/
def Bus.Adds (P : List Event → Prop) (m m' : Bus) : Prop := ∃ es, m'.trace = m.trace ++ es ∧ P es

namespace Bus.Adds

variable {P Q R : List Event → Prop} {m m' m'' : Bus}

theorem mono (h : m.Adds P m') (hPQ : ∀ es, P es → Q es) : m.Adds Q m' := by
  obtain ⟨es, htrace, hes⟩ := h
  exact ⟨es, htrace, hPQ es hes⟩

theorem append (h : m.Adds P m') (h' : m'.Adds Q m'') (hR : ∀ xs ys, P xs → Q ys → R (xs ++ ys)) :
    m.Adds R m'' := by
  obtain ⟨xs, hxs, hP⟩ := h
  obtain ⟨ys, hys, hQ⟩ := h'
  refine ⟨xs ++ ys, ?_, hR xs ys hP hQ⟩
  rw [hys, hxs, List.append_assoc]

theorem nil (hP : P []) (m : Bus) : m.Adds P m := ⟨[], by simp, hP⟩

/-- A loop whose turns add events of a kind. -/
theorem iterate (hP : P []) (happ : ∀ xs ys, P xs → P ys → P (xs ++ ys)) (n : ℕ) {f : ℕ → Bus → Bus}
    (hf : ∀ i (x : Bus), x.Adds P (f i x)) (m : Bus) : m.Adds P (iterate n f m) :=
  iterate_induction n f m (fun _ x => m.Adds P x) (nil hP m) fun i x _ hx => hx.append (hf i x) happ

/-- A run whose steps add events of a kind. -/
theorem foldl {ι : Type*} (m : Bus) (hP : P []) (happ : ∀ xs ys, P xs → P ys → P (xs ++ ys)) {f : Bus → ι → Bus}
    (hf : ∀ i (x : Bus), x.Adds P (f x i)) (is : List ι) : m.Adds P (is.foldl f m) :=
  foldl_invariant (I := fun x => m.Adds P x) (fun x i hx => hx.append (hf i x) happ) m is (nil hP m)

/-- What disturbs nothing whatever it finds does not matter. -/
theorem undisturbed_iff (h : m.Adds Guarded m') : Undisturbed false m'.trace ↔ Undisturbed false m.trace := by
  obtain ⟨es, htrace, hes⟩ := h
  rw [htrace, undisturbed_append]
  exact and_iff_left (hes.mono (by simp))

end Bus.Adds

/-! ## Accesses of the processor -/

/-- The processor alone was at work. -/
abbrev Bus.Cpu (m m' : Bus) : Prop := m.Adds ByCpu m'

namespace Bus.Cpu

variable {m m' m'' : Bus}

theorem refl (m : Bus) : m.Cpu m := .nil byCpu_nil m

theorem trans (h : m.Cpu m') (h' : m'.Cpu m'') : m.Cpu m'' := h.append h' fun _ _ => ByCpu.append

theorem iterate (n : ℕ) {f : ℕ → Bus → Bus} (hf : ∀ i (x : Bus), x.Cpu (f i x)) (m : Bus) : m.Cpu (iterate n f m) :=
  Adds.iterate byCpu_nil (fun _ _ => ByCpu.append) n hf m

theorem note {e : Event} (he : e.isCpu) (m : Bus) : m.Cpu (m.note e) := ⟨[e], rfl, by simpa [ByCpu] using he⟩

theorem put8 (a : ℤ) (v : Byte) (m : Bus) : m.Cpu (m.put8 a v) := ⟨[.cpuWrite a 1], rfl, by simp [ByCpu, Event.isCpu]⟩

theorem put32 (a : ℤ) (w : Word) (m : Bus) : m.Cpu (m.put32 a w) :=
  ⟨[.cpuWrite a 4], rfl, by simp [ByCpu, Event.isCpu]⟩

/-- One of two. -/
theorem ite {p : Prop} [Decidable p] {x y : Bus} (hx : m.Cpu x) (hy : m.Cpu y) : m.Cpu (if p then x else y) := by
  split
  · exact hx
  · exact hy

theorem fillBytes (n : ℕ) (a : ℤ) (v : Byte) (m : Bus) : m.Cpu (fillBytes n a v m) :=
  iterate n (fun i x => put8 (a + i) v x) m

theorem fillWords (n : ℕ) (a : ℤ) (w : Word) (m : Bus) : m.Cpu (fillWords n a w m) :=
  iterate n (fun i x => put32 (a + 4 * i) w x) m

theorem copyUp (n : ℕ) (src dst : ℤ) (m : Bus) : m.Cpu (copyUp n src dst m) :=
  iterate n (fun i x => (note (e := .cpuRead (src + 4 * i) 4) rfl x).trans (put32 _ _ _)) m

theorem copyDown (n : ℕ) (src dst : ℤ) (m : Bus) : m.Cpu (copyDown n src dst m) :=
  iterate n (fun i x => (note (e := .cpuRead (src - 4 * i) 4) rfl x).trans (put32 _ _ _)) m

end Bus.Cpu

end Pigfx.Lib
