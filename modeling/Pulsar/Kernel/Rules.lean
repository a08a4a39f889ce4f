import Pulsar.Kernel.Call

/-!
# Rules for the kernel's small programs

One rule for each piece the calls are made of.
-/

namespace Pulsar.Kernel

variable {V α : Type} {k : K V}

theorem wp_position {n : Nat} {p : Nat → Bool} {e : Errno} {Q : Nat → K V → Prop}
    {E : Errno → K V → Prop} (hQ : ∀ i < n, p i = true → Q i k) (hE : E e k) :
    wp (position n p e) Q E k := by
  unfold position
  split
  · rename_i i h
    exact hQ i (List.mem_range.mp (List.mem_of_find?_eq_some h)) (List.find?_some h)
  · exact hE

theorem wp_allocContig {e : Errno} {Q : Nat → K V → Prop} {E : Errno → K V → Prop}
    (hQ : Q (k.asked + 1) { k with asked := k.asked + 1 })
    (hE : E e { k with asked := k.asked + 1 }) : wp (allocContig e) Q E k := by
  simp only [allocContig, wp_bind, wp_get, wp_set, wp_ite, wp_pure, wp_throw]
  exact ⟨fun _ => hQ, fun _ => hE⟩

theorem wp_getFd {l fd : Nat} {Q : OpenFile → K V → Prop} {E : Errno → K V → Prop}
    (hQ : fd % 2 ^ 32 < MAX_FDS → Q (k.fds l (fd % 2 ^ 32)) k) (hE : E EBADF k) :
    wp (getFd l fd) Q E k := by
  simp only [getFd, wp_bind, wp_get, wp_ite, wp_pure, wp_throw]
  exact ⟨fun h => hQ h.1, fun _ => hE⟩

theorem wp_getFd_open {l fd : Nat} {Q : OpenFile → K V → Prop} {E : Errno → K V → Prop}
    (hQ : fd % 2 ^ 32 < MAX_FDS → (k.fds l (fd % 2 ^ 32)).kind ≠ .free →
      Q (k.fds l (fd % 2 ^ 32)) k) (hE : E EBADF k) : wp (getFd l fd) Q E k := by
  simp only [getFd, wp_bind, wp_get, wp_ite, wp_pure, wp_throw]
  exact ⟨fun h => hQ h.1 h.2, fun _ => hE⟩

theorem wp_install {l min : Nat} {f : OpenFile} {Q : Nat → K V → Prop} {E : Errno → K V → Prop}
    (hQ : ∀ fd < MAX_FDS, (k.fds l fd).kind = .free → Q fd (k.setFd l fd f)) (hE : E EMFILE k) :
    wp (install l f min) Q E k := by
  simp only [install, wp_bind, wp_get]
  refine wp_position (fun i hi hp => ?_) hE
  rw [decide_eq_true_eq] at hp
  exact hQ i hi hp.2

@[simp] theorem wp_onError {x : Prog V α} {f : K V → K V} {Q : α → K V → Prop}
    {E : Errno → K V → Prop} : wp (onError x f) Q E k ↔ wp x Q (fun e k => E e (f k)) k := by
  simp only [wp, onError]
  cases x k <;> rfl

theorem wp_below {x : V → Except Errno α × V} {Q : α → K V → Prop} {E : Errno → K V → Prop}
    (hQ : ∀ a v, Q a { k with vol := v }) (hE : ∀ e v, E e { k with vol := v }) :
    wp (below x) Q E k := by
  unfold wp below
  rcases x k.vol with ⟨⟨e⟩ | ⟨a⟩, v⟩
  · exact hE e v
  · exact hQ a v

@[simp] theorem wp_wouldBlock {w : Wait} {key : Nat} {Q : α → K V → Prop}
    {E : Errno → K V → Prop} : wp (wouldBlock w key : Prog V α) Q E k ↔
      E EBLOCK { k with blockOn := some (w, key, k.seq (keyBucket key)) } := Iff.rfl

@[simp] theorem wp_discard {x : Prog V α} {Q : PUnit → K V → Prop} {E : Errno → K V → Prop} :
    wp (discard x) Q E k ↔ wp x (fun _ => Q ⟨⟩) E k := by
  simp only [discard, Functor.mapConst, wp]
  cases h : x k <;> simp [EStateM.map, h, Function.comp]

theorem Prog.after_ok {x : Prog V α} {a : α} {k' : K V} (h : x k = .ok a k') : x.after k = k' := by
  rw [Prog.after, h]

theorem Prog.after_error {x : Prog V α} {e : Errno} {k' : K V} (h : x k = .error e k') :
    x.after k = k' := by
  rw [Prog.after, h]

theorem Prog.after_discard (x : Prog V α) : (discard x : Prog V PUnit).after k = x.after k := by
  simp only [Prog.after, discard, Functor.mapConst]
  cases h : x k <;> simp [EStateM.map, h, Function.comp]

/-- The state a program leaves, by its specification. -/
theorem Prog.after_of_wp {x : Prog V α} {P : K V → Prop}
    (h : wp x (fun _ => P) (fun _ => P) k) : P (x.after k) := by
  unfold Prog.after
  unfold wp at h
  split at h <;> rename_i hx <;> simp only [hx] <;> exact h

end Pulsar.Kernel
