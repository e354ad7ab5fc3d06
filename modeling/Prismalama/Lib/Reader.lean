import Mathlib.Tactic

/-!
# Readers of untrusted bytes

A reader takes bytes from an input and ends with a value, an error or a panic. Its cursor
counts the reads and the errors that were dropped, and it marks what the input says about
lengths before it relies on it. `Sound Fine r` is the rule for such a reader: while all
marks are fine it reads at most once in vain, and it panics or drops an error only behind
a mark that is not. Readers are made from `bytes`, `mark` and their kin, for which the
rule is proved once.
-/

namespace Prismalama.Lib

/-- `marks` are those made so far, last one first. -/
structure Cursor (φ : Type) where
  pos : Nat
  reads : Nat
  ignored : Nat
  marks : List φ

inductive Result (α : Type)
  | ok (a : α)
  | error
  | panic
  deriving DecidableEq

def Reader (φ α : Type) : Type := List UInt8 → Cursor φ → Result α × Cursor φ

def Result.value {α : Type} : Result α → Option α
  | .ok a => some a
  | _ => none

def Result.isPanic {α : Type} : Result α → Bool
  | .panic => true
  | _ => false

namespace Reader

variable {φ α β : Type}

instance : Monad (Reader φ) where
  pure a := fun _ c => (.ok a, c)
  bind r f := fun b c =>
    match r b c with
    | (.ok a, c') => f a b c'
    | (.error, c') => (.error, c')
    | (.panic, c') => (.panic, c')

def error : Reader φ α := fun _ c => (.error, c)

def panic : Reader φ α := fun _ c => (.panic, c)

/-- `io.ReadFull`. No bytes are there without a read. -/
def bytes (n : Nat) : Reader φ (List UInt8) := fun b c =>
  if n = 0 then (.ok [], c)
  else if c.pos + n ≤ b.length then
    (.ok ((b.drop c.pos).take n), { c with pos := c.pos + n, reads := c.reads + 1 })
  else (.error, { c with pos := b.length, reads := c.reads + 1 })

/-- A mark, and a panic where `ok` does not hold. -/
def guard (f : φ) (ok : Prop) [Decidable ok] : Reader φ Unit := fun _ c =>
  (if ok then .ok () else .panic, { c with marks := f :: c.marks })

/-- A mark of the place, and a reader whose error is dropped. -/
def attempt (f : Nat → φ) (r : Reader φ Unit) : Reader φ Unit := fun b c =>
  match r b { c with marks := f c.pos :: c.marks } with
  | (.error, c') => (.ok (), { c' with ignored := c'.ignored + 1 })
  | out => out

/-- The place in the input. -/
def tell : Reader φ Nat := fun _ c => (.ok c.pos, c)

def size : Reader φ Nat := fun b c => (.ok b.length, c)

/-- `n` times, with all values. -/
def replicate (r : Reader φ α) : Nat → Reader φ (List α)
  | 0 => pure []
  | n + 1 => do
    let a ← r
    let rest ← replicate r n
    pure (a :: rest)

/-- `n` times, without the values. -/
def repeatFor (r : Reader φ Unit) : Nat → Reader φ Unit
  | 0 => pure ()
  | n + 1 => do
    r
    repeatFor r n

/-- `n` times, with a state. -/
def iterate (r : α → Reader φ α) : Nat → α → Reader φ α
  | 0, a => pure a
  | n + 1, a => do
    let a' ← r a
    iterate r n a'

theorem bind_eq (r : Reader φ α) (f : α → Reader φ β) (b : List UInt8) (c : Cursor φ) :
    (r >>= f) b c =
      match r b c with
      | (.ok a, c') => f a b c'
      | (.error, c') => (.error, c')
      | (.panic, c') => (.panic, c') := rfl

theorem bind_of_ok {r : Reader φ α} {f : α → Reader φ β} {b : List UInt8} {c c' : Cursor φ} {a : α}
    (h : r b c = (.ok a, c')) : (r >>= f) b c = f a b c' := by
  rw [bind_eq, h]

theorem bytes_of_le {n : Nat} {b : List UInt8} {c : Cursor φ} (hn : 0 < n)
    (h : c.pos + n ≤ b.length) : bytes n b c =
      (.ok ((b.drop c.pos).take n), { c with pos := c.pos + n, reads := c.reads + 1 }) := by
  rw [bytes, if_neg hn.ne', if_pos h]

theorem bytes_of_lt {n : Nat} {b : List UInt8} {c : Cursor φ} (hn : 0 < n)
    (h : b.length < c.pos + n) : bytes n b c =
      (.error, { c with pos := b.length, reads := c.reads + 1 }) := by
  rw [bytes, if_neg hn.ne', if_neg (not_le.mpr h)]

/-! ## The rule -/

variable (Fine : List UInt8 → φ → Prop)

/-- All marks are fine, and every read has brought a byte. -/
structure Good (b : List UInt8) (c : Cursor φ) : Prop where
  fine : ∀ f ∈ c.marks, Fine b f
  ignored : c.ignored = 0
  reads : c.reads ≤ c.pos
  pos : c.pos ≤ b.length

/-- A read was in vain, and it was the last one. -/
structure Ended (b : List UInt8) (c : Cursor φ) : Prop where
  fine : ∀ f ∈ c.marks, Fine b f
  ignored : c.ignored = 0
  reads : c.reads ≤ b.length + 1

def Unfine (b : List UInt8) (c : Cursor φ) : Prop := ∃ f ∈ c.marks, ¬Fine b f

/-- An error was dropped, behind a mark that is not fine. -/
def Spoilt (b : List UInt8) (c : Cursor φ) : Prop := 0 < c.ignored ∧ Unfine Fine b c

def After (b : List UInt8) : Result α × Cursor φ → Prop
  | (.ok _, c) => Good Fine b c ∨ Spoilt Fine b c
  | (.error, c) => Ended Fine b c ∨ Spoilt Fine b c
  | (.panic, c) => Unfine Fine b c

structure Sound (r : Reader φ α) : Prop where
  good : ∀ b c, Good Fine b c → After Fine b (r b c)
  spoilt : ∀ b c, Spoilt Fine b c → Spoilt Fine b (r b c).2

variable {Fine} {b : List UInt8} {c : Cursor φ}

theorem Good.ended (h : Good Fine b c) : Ended Fine b c :=
  ⟨h.fine, h.ignored, h.reads.trans (h.pos.trans (Nat.le_succ _))⟩

theorem After.spoilt {res : Result α} (h : Spoilt Fine b c) : After Fine b (res, c) := by
  cases res with
  | ok a => exact .inr h
  | error => exact .inr h
  | panic => exact h.2

theorem sound_pure (a : α) : Sound Fine (pure a : Reader φ α) :=
  ⟨fun _ _ h => .inl h, fun _ _ h => h⟩

theorem sound_error : Sound Fine (error : Reader φ α) :=
  ⟨fun _ _ h => .inl h.ended, fun _ _ h => h⟩

theorem sound_tell : Sound Fine (tell : Reader φ Nat) :=
  ⟨fun _ _ h => .inl h, fun _ _ h => h⟩

theorem sound_size : Sound Fine (size : Reader φ Nat) :=
  ⟨fun _ _ h => .inl h, fun _ _ h => h⟩

theorem Sound.bind {r : Reader φ α} {f : α → Reader φ β} (hr : Sound Fine r)
    (hf : ∀ a, Sound Fine (f a)) : Sound Fine (r >>= f) := by
  constructor
  · intro b c hc
    have h := hr.good b c hc
    rw [bind_eq]
    generalize r b c = out at h
    obtain ⟨res, c'⟩ := out
    cases res with
    | ok a =>
      rcases h with hgood | hspoilt
      · exact (hf a).good b c' hgood
      · exact After.spoilt ((hf a).spoilt b c' hspoilt)
    | error => exact h
    | panic => exact h
  · intro b c hc
    have h := hr.spoilt b c hc
    rw [bind_eq]
    generalize r b c = out at h
    obtain ⟨res, c'⟩ := out
    cases res with
    | ok a => exact (hf a).spoilt b c' h
    | error => exact h
    | panic => exact h

theorem sound_bytes (n : Nat) : Sound Fine (bytes n : Reader φ (List UInt8)) := by
  constructor
  · intro b c h
    rw [bytes]
    split
    · exact .inl h
    · split
      · rename_i hn hle
        have hreads := h.reads
        refine .inl ⟨h.fine, h.ignored, ?_, hle⟩
        show c.reads + 1 ≤ c.pos + n
        omega
      · exact .inl ⟨h.fine, h.ignored, Nat.succ_le_succ (h.reads.trans h.pos)⟩
  · intro b c h
    rw [bytes]
    split
    · exact h
    · split
      · exact h
      · exact h

/-- A panic that the mark foretells. -/
theorem sound_guard {f : φ} {ok : Prop} [Decidable ok] (h : ∀ b, Fine b f ↔ ok) :
    Sound Fine (guard f ok : Reader φ Unit) := by
  constructor
  · intro b c hc
    rw [guard]
    split
    · rename_i hok
      refine .inl ⟨fun g hg => ?_, hc.ignored, hc.reads, hc.pos⟩
      rcases List.mem_cons.mp hg with rfl | hg
      · exact (h b).mpr hok
      · exact hc.fine g hg
    · rename_i hok
      exact ⟨f, List.mem_cons_self, fun hfine => hok ((h b).mp hfine)⟩
  · rintro b c ⟨hignored, g, hg, hfine⟩
    exact ⟨hignored, g, List.mem_cons_of_mem _ hg, hfine⟩

/-- An error is dropped only where the mark is not fine. -/
theorem sound_attempt {f : Nat → φ} {r : Reader φ Unit} (hr : Sound Fine r)
    (hmarks : ∀ b c, (r b c).2.marks = c.marks)
    (hfine : ∀ b c, (Fine b (f c.pos) ∧ (r b c).1 = .ok ()) ∨
      (¬Fine b (f c.pos) ∧ (r b c).1 = .error)) :
    Sound Fine (attempt f r) := by
  constructor
  · intro b c hc
    rw [attempt]
    have hres := hfine b { c with marks := f c.pos :: c.marks }
    have hm := hmarks b { c with marks := f c.pos :: c.marks }
    have hgood := hr.good b { c with marks := f c.pos :: c.marks }
    generalize r b { c with marks := f c.pos :: c.marks } = out at hres hm hgood
    obtain ⟨res, c'⟩ := out
    rcases hres with ⟨hf, hres⟩ | ⟨hf, hres⟩
    · obtain rfl : res = .ok () := hres
      refine hgood ⟨fun g hg => ?_, hc.ignored, hc.reads, hc.pos⟩
      rcases List.mem_cons.mp hg with rfl | hg
      · exact hf
      · exact hc.fine g hg
    · obtain rfl : res = .error := hres
      refine .inr ⟨Nat.succ_pos _, f c.pos, ?_, hf⟩
      show f c.pos ∈ c'.marks
      rw [show c'.marks = f c.pos :: c.marks from hm]
      exact List.mem_cons_self
  · rintro b c ⟨hignored, g, hg, hf⟩
    have hs := hr.spoilt b { c with marks := f c.pos :: c.marks }
      ⟨hignored, g, List.mem_cons_of_mem _ hg, hf⟩
    rw [attempt]
    generalize r b { c with marks := f c.pos :: c.marks } = out at hs
    obtain ⟨res, c'⟩ := out
    cases res with
    | ok a => exact hs
    | error => exact ⟨Nat.succ_pos _, hs.2⟩
    | panic => exact hs

theorem Sound.replicate {r : Reader φ α} (hr : Sound Fine r) (n : Nat) :
    Sound Fine (r.replicate n) := by
  induction n with
  | zero => exact sound_pure []
  | succ n ih => exact hr.bind fun a => ih.bind fun rest => sound_pure (a :: rest)

theorem Sound.repeatFor {r : Reader φ Unit} (hr : Sound Fine r) (n : Nat) :
    Sound Fine (r.repeatFor n) := by
  induction n with
  | zero => exact sound_pure ()
  | succ n ih => exact hr.bind fun _ => ih

theorem Sound.iterate {r : α → Reader φ α} (hr : ∀ a, Sound Fine (r a)) (n : Nat) (a : α) :
    Sound Fine (iterate r n a) := by
  induction n generalizing a with
  | zero => exact sound_pure a
  | succ n ih => exact (hr a).bind fun a' => ih a'

/-! ## What is written is read -/

/-- Wherever the input goes on with `w`, all of `w` is read, with the value `a`. -/
def Reads (r : Reader φ α) (a : α) (w : List UInt8) : Prop :=
  ∀ b (c : Cursor φ), w <+: b.drop c.pos → c.pos ≤ b.length →
    ∃ c', r b c = (.ok a, c') ∧ c'.pos = c.pos + w.length

theorem pos_add_le {b w : List UInt8} {pos : Nat} (h : w <+: b.drop pos) (hpos : pos ≤ b.length) :
    pos + w.length ≤ b.length := by
  have hle := h.length_le
  rw [List.length_drop] at hle
  omega

theorem Reads.pure (a : α) : Reads (pure a : Reader φ α) a [] := fun _ c _ _ => ⟨c, rfl, rfl⟩

/-- A reader is run, and the input goes on behind it. -/
theorem Reads.step {r : Reader φ α} {a : α} {w rest b : List UInt8} {c : Cursor φ}
    (hr : Reads r a w) (hw : w ++ rest <+: b.drop c.pos) (hpos : c.pos ≤ b.length)
    (f : α → Reader φ β) : ∃ c', (r >>= f) b c = f a b c' ∧ c'.pos = c.pos + w.length ∧
      rest <+: b.drop c'.pos ∧ c'.pos ≤ b.length := by
  have hfirst := (List.prefix_append w rest).trans hw
  obtain ⟨c', hout, hpos'⟩ := hr b c hfirst hpos
  refine ⟨c', bind_of_ok hout, hpos', ?_, hpos' ▸ pos_add_le hfirst hpos⟩
  obtain ⟨tail, htail⟩ := hw
  rw [hpos', ← List.drop_drop, ← htail, List.append_assoc, List.drop_left]
  exact List.prefix_append rest tail

theorem Reads.bind {r : Reader φ α} {f : α → Reader φ β} {a : α} {a' : β} {w w' : List UInt8}
    (hr : Reads r a w) (hf : Reads (f a) a' w') : Reads (r >>= f) a' (w ++ w') := by
  intro b c hw hpos
  obtain ⟨c₁, hout, hpos₁, hrest, hle⟩ := hr.step hw hpos f
  obtain ⟨c₂, hout', hpos₂⟩ := hf b c₁ hrest hle
  refine ⟨c₂, hout.trans hout', ?_⟩
  rw [hpos₂, hpos₁, List.length_append, Nat.add_assoc]

/-- The same, where the second reader reads nothing. -/
theorem Reads.map {r : Reader φ α} {f : α → Reader φ β} {a : α} {a' : β} {w : List UInt8}
    (hr : Reads r a w) (hf : Reads (f a) a' []) : Reads (r >>= f) a' w := by
  have h := hr.bind hf
  rwa [List.append_nil] at h

theorem Reads.bytes (w : List UInt8) : Reads (bytes w.length : Reader φ (List UInt8)) w w := by
  intro b c hw hpos
  rcases Nat.eq_zero_or_pos w.length with hzero | hlen
  · rw [hzero, List.length_eq_zero_iff.mp hzero]
    exact ⟨c, rfl, rfl⟩
  · have hout := bytes_of_le hlen (pos_add_le hw hpos)
    rw [← List.prefix_iff_eq_take.mp hw] at hout
    exact ⟨_, hout, rfl⟩

theorem Reads.guard {f : φ} {ok : Prop} [Decidable ok] (h : ok) :
    Reads (guard f ok : Reader φ Unit) () [] := by
  intro b c _ _
  refine ⟨{ c with marks := f :: c.marks }, ?_, rfl⟩
  rw [Reader.guard, if_pos h]

theorem Reads.replicate {r : Reader φ α} {enc : α → List UInt8} (as : List α)
    (h : ∀ a ∈ as, Reads r a (enc a)) : Reads (r.replicate as.length) as (as.flatMap enc) := by
  induction as with
  | nil => exact .pure []
  | cons a as ih =>
    have hrest := ih fun a' ha' => h a' (List.mem_cons_of_mem a ha')
    exact (h a List.mem_cons_self).bind (hrest.map (.pure (a :: as)))

theorem Reads.iterate {r : β → Reader φ β} {next : β → α → β} {enc : α → List UInt8} (as : List α)
    (h : ∀ a ∈ as, ∀ acc, Reads (r acc) (next acc a) (enc a)) (acc : β) :
    Reads (iterate r as.length acc) (as.foldl next acc) (as.flatMap enc) := by
  induction as generalizing acc with
  | nil => exact .pure acc
  | cons a as ih =>
    exact (h a List.mem_cons_self acc).bind
      (ih (fun a' ha' => h a' (List.mem_cons_of_mem a ha')) (next acc a))

/-! ## What is returned -/

def Returns (r : Reader φ α) (Q : List UInt8 → α → Prop) : Prop :=
  ∀ b c a c', r b c = (.ok a, c') → Q b a

theorem Returns.bind {r : Reader φ α} {f : α → Reader φ β} {Q : List UInt8 → β → Prop}
    (h : ∀ a, Returns (f a) Q) : Returns (r >>= f) Q := by
  intro b c a c' hout
  rw [bind_eq] at hout
  generalize r b c = out at hout
  obtain ⟨res, c₁⟩ := out
  cases res with
  | ok a₁ => exact h a₁ b c₁ a c' hout
  | error => cases hout
  | panic => cases hout

theorem Returns.pure {a : α} {Q : List UInt8 → α → Prop} (h : ∀ b, Q b a) :
    Returns (pure a : Reader φ α) Q := by
  intro b c a' c' hout
  obtain rfl := Result.ok.inj (Prod.mk.inj hout).1
  exact h b

/-- With what the first reader returns. -/
theorem Returns.bind_of {r : Reader φ α} {f : α → Reader φ β} {P : α → Prop}
    {Q : List UInt8 → β → Prop} (hr : Returns r fun _ a => P a)
    (h : ∀ a, P a → Returns (f a) Q) : Returns (r >>= f) Q := by
  intro b c a c' hout
  rw [bind_eq] at hout
  have hfirst := hr b c
  generalize r b c = out at hout hfirst
  obtain ⟨res, c₁⟩ := out
  cases res with
  | ok a₁ => exact h a₁ (hfirst a₁ c₁ rfl) b c₁ a c' hout
  | error => cases hout
  | panic => cases hout

theorem Returns.replicate {r : Reader φ α} {P : α → Prop} (hr : Returns r fun _ a => P a)
    (n : Nat) : Returns (r.replicate n) fun _ as => as.length = n ∧ ∀ a ∈ as, P a := by
  induction n with
  | zero => exact .pure fun _ => ⟨rfl, fun a ha => absurd ha List.not_mem_nil⟩
  | succ n ih =>
    refine hr.bind_of fun a ha => ih.bind_of fun rest hrest => .pure fun _ => ⟨?_, ?_⟩
    · rw [List.length_cons, hrest.1]
    · intro a' ha'
      rcases List.mem_cons.mp ha' with rfl | ha'
      · exact ha
      · exact hrest.2 a' ha'

end Reader

end Prismalama.Lib
