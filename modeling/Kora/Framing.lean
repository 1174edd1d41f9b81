/-
Self-delimiting encodings.

A concatenation of fields can be read in one way only if each field, at the front of an
arbitrary string, settles both its value and where it ends (`Settles`).

* `Settles.bind`, `Settles.append` — one field after the other;
* `Settles.flatMap`, `Settles.counted` — a list of known length, or preceded by it.
-/
import Kora.BigEndian
import Mathlib.Data.Set.Basic

open List

namespace Framing

variable {α β γ δ σ : Type*}

/-- Encodings of values in `S` that begin the same string agree on `f` and on what follows. -/
def Settles (S : Set α) (enc : α → List σ) (f : α → γ) : Prop :=
  ∀ ⦃a⦄, a ∈ S → ∀ ⦃b⦄, b ∈ S → ∀ s t, enc a ++ s = enc b ++ t → f a = f b ∧ s = t

variable {S T : Set α} {enc enc' : α → List σ} {f : α → γ} {g : α → δ}

theorem Settles.mono (h : Settles S enc f) (hsub : T ⊆ S) : Settles T enc f :=
  fun _ ha _ hb => h (hsub ha) (hsub hb)

theorem Settles.comp (h : Settles S enc f) (p : β → α) :
    Settles (Set.preimage p S) (enc ∘ p) (f ∘ p) :=
  fun _ ha _ hb => h ha hb

theorem Settles.of_imp (h : Settles S enc f)
    (himp : ∀ a ∈ S, ∀ b ∈ S, f a = f b → g a = g b) : Settles S enc g := by
  intro a ha b hb s t heq
  obtain ⟨hf, hr⟩ := h ha hb s t heq
  exact ⟨himp a ha b hb hf, hr⟩

theorem Settles.of_length {n : ℕ} (hlen : ∀ a ∈ S, (enc a).length = n)
    (hinj : ∀ a ∈ S, ∀ b ∈ S, enc a = enc b → f a = f b) : Settles S enc f := by
  intro a ha b hb s t heq
  have hl : (enc a).length = (enc b).length := by rw [hlen a ha, hlen b hb]
  obtain ⟨henc, hr⟩ := append_inj heq hl
  exact ⟨hinj a ha b hb henc, hr⟩

theorem Settles.bind (h : Settles S enc f) (h' : ∀ c, Settles {a ∈ S | f a = c} enc' g) :
    Settles S (fun a => enc a ++ enc' a) (fun a => (f a, g a)) := by
  intro a ha b hb s t heq
  rw [append_assoc, append_assoc] at heq
  obtain ⟨hf, hr⟩ := h ha hb _ _ heq
  obtain ⟨hg, hend⟩ := h' (f b) ⟨ha, hf⟩ ⟨hb, rfl⟩ s t hr
  exact ⟨Prod.ext hf hg, hend⟩

theorem Settles.append (h : Settles S enc f) (h' : Settles S enc' g) :
    Settles S (fun a => enc a ++ enc' a) (fun a => (f a, g a)) :=
  h.bind fun _ => h'.mono fun _ ha => ha.1

theorem Settles.option (h : Settles S enc id) {x y : σ} (hxy : x ≠ y) :
    Settles {o : Option α | ∀ a ∈ o, a ∈ S} (fun o => o.elim [y] fun a => x :: enc a) id := by
  intro o ho p hp s t heq
  cases o with
  | none =>
    cases p with
    | none => exact ⟨rfl, append_cancel_left heq⟩
    | some b => exact absurd (cons.inj heq).1 hxy.symm
  | some a =>
    cases p with
    | none => exact absurd (cons.inj heq).1 hxy
    | some b =>
      obtain ⟨hab, hr⟩ := h (ho a rfl) (hp b rfl) s t (cons.inj heq).2
      exact ⟨congrArg some hab, hr⟩

/-! ### Lists -/

theorem Settles.flatMap (h : Settles S enc id) (n : ℕ) :
    Settles {l : List α | l.length = n ∧ ∀ a ∈ l, a ∈ S} (fun l => l.flatMap enc) id := by
  induction n with
  | zero =>
    rintro l ⟨hl, -⟩ m ⟨hm, -⟩ s t heq
    obtain rfl := length_eq_zero_iff.1 hl
    obtain rfl := length_eq_zero_iff.1 hm
    exact ⟨rfl, heq⟩
  | succ n ih =>
    rintro l ⟨hl, hlS⟩ m ⟨hm, hmS⟩ s t heq
    obtain ⟨a, l, rfl⟩ := exists_cons_of_length_eq_add_one hl
    obtain ⟨b, m, rfl⟩ := exists_cons_of_length_eq_add_one hm
    rw [length_cons, Nat.add_right_cancel_iff] at hl hm
    simp only [flatMap_cons, append_assoc] at heq
    obtain ⟨rfl, hr⟩ := h (hlS a mem_cons_self) (hmS b mem_cons_self) _ _ heq
    obtain ⟨rfl, hend⟩ := ih ⟨hl, fun x hx => hlS x (mem_cons_of_mem a hx)⟩
      ⟨hm, fun x hx => hmS x (mem_cons_of_mem _ hx)⟩ s t hr
    exact ⟨rfl, hend⟩

theorem settles_digits (n : ℕ) : Settles {x | x < 256 ^ n} (BigEndian.digits n) id := by
  refine Settles.of_length (fun x _ => BigEndian.digits_length n x) fun x hx y hy heq => ?_
  have hval := congrArg BigEndian.value heq
  rw [BigEndian.value_digits, BigEndian.value_digits] at hval
  rwa [Nat.mod_eq_of_lt hx, Nat.mod_eq_of_lt hy] at hval

theorem settles_toBytes (n : ℕ) : Settles Set.univ (BigEndian.toBytes n) id := by
  refine Settles.of_length (fun x _ => BigEndian.toBytes_length n x) fun x _ y _ heq => ?_
  have hval := congrArg (BigEndian.ofBytes n) heq
  rwa [BigEndian.ofBytes_toBytes, BigEndian.ofBytes_toBytes] at hval

theorem Settles.counted {enc : α → List UInt8} (h : Settles S enc id) (n : ℕ) :
    Settles {l : List α | l.length < 256 ^ n ∧ ∀ a ∈ l, a ∈ S}
      (fun l => BigEndian.digits n l.length ++ l.flatMap enc) id := by
  have hc : Settles {l : List α | l.length < 256 ^ n ∧ ∀ a ∈ l, a ∈ S}
      (fun l => BigEndian.digits n l.length) List.length :=
    ((settles_digits n).comp List.length).mono fun _ hl => hl.1
  refine (hc.bind fun c => (h.flatMap c).mono ?_).of_imp fun l _ m _ heq => ?_
  · rintro l ⟨⟨-, hlS⟩, hlen⟩
    exact ⟨hlen, hlS⟩
  · exact (Prod.mk.inj heq).2

theorem settles_blob (n : ℕ) :
    Settles {l : List UInt8 | l.length < 256 ^ n} (fun l => BigEndian.digits n l.length ++ l)
      id := by
  have hb : Settles Set.univ (fun b : UInt8 => [b]) id :=
    Settles.of_length (fun _ _ => rfl) fun a _ b _ heq => singleton_inj.1 heq
  have hc := hb.counted n
  simp only [flatMap_singleton', Set.mem_univ, implies_true, and_true] at hc
  exact hc

end Framing
