import LxmfLite.ByteString

namespace LxmfLite.Execution

open ByteString

variable {ε σ α β : Type}

/-- A call that does not return a value either panics or returns an error. -/
inductive Fault (ε : Type)
  | panic
  | error (e : ε)
  deriving DecidableEq

abbrev Outcome (ε α : Type) := Except (Fault ε) α

def fail (e : ε) : Outcome ε α := .error (.error e)

def panic : Outcome ε α := .error .panic

def rejectIf (c : Prop) [Decidable c] (e : ε) : Outcome ε Unit := if c then fail e else .ok ()

def orFail (x : Option α) (e : ε) : Outcome ε α := x.elim (fail e) .ok

def index (bs : Bytes) (i : Nat) : Outcome ε UInt8 := bs[i]?.elim panic .ok

def slice (bs : Bytes) (i j : Nat) : Outcome ε Bytes :=
  if i ≤ j ∧ j ≤ bs.length then .ok (bs.extract i j) else panic

/-- buf[i..j].copy_from_slice(src) -/
def copyFromSlice (buf : Bytes) (i j : Nat) (src : Bytes) : Outcome ε Bytes :=
  if i ≤ j ∧ j ≤ buf.length ∧ src.length = j - i then .ok (overwrite buf i src) else panic

/-- buf.copy_within(i..j, dest) -/
def copyWithin (buf : Bytes) (i j dest : Nat) : Outcome ε Bytes :=
  if i ≤ j ∧ j ≤ buf.length ∧ dest + (j - i) ≤ buf.length then
    .ok (overwrite buf dest (buf.extract i j))
  else panic

@[simp] theorem ok_bind (a : α) (f : α → Outcome ε β) :
    (Except.ok a : Outcome ε α) >>= f = f a := rfl

@[simp] theorem error_bind (e : Fault ε) (f : α → Outcome ε β) :
    (Except.error e : Outcome ε α) >>= f = .error e := rfl

@[simp] theorem pure_eq_ok (a : α) : (pure a : Outcome ε α) = .ok a := rfl

theorem bind_eq_ok {x : Outcome ε α} {f : α → Outcome ε β} {b : β} :
    x >>= f = .ok b ↔ ∃ a, x = .ok a ∧ f a = .ok b := by
  cases x with
  | ok a => simp
  | error e => simp

@[simp] theorem fail_bind (e : ε) (f : α → Outcome ε β) :
    (fail e : Outcome ε α) >>= f = fail e := rfl

@[simp] theorem fail_ne_ok (e : ε) (a : α) : (fail e : Outcome ε α) ≠ .ok a := nofun

@[simp] theorem panic_ne_ok (a : α) : (panic : Outcome ε α) ≠ .ok a := nofun

@[simp] theorem rejectIf_bind (c : Prop) [Decidable c] (e : ε) (f : Unit → Outcome ε β) :
    rejectIf c e >>= f = if c then fail e else f () := by
  rw [rejectIf]
  split <;> rfl

theorem ite_bind {c : Prop} [Decidable c] {x y : Outcome ε α} {f : α → Outcome ε β} :
    (if c then x else y) >>= f = if c then x >>= f else y >>= f := by
  split <;> rfl

def OkOr (e : ε) (x : Outcome ε α) : Prop := (∃ a, x = .ok a) ∨ x = fail e

theorem OkOr.bind {e : ε} {x : Outcome ε α} {f : α → Outcome ε β} (hx : OkOr e x)
    (hf : ∀ a, OkOr e (f a)) : OkOr e (x >>= f) := by
  rcases hx with ⟨a, rfl⟩ | rfl
  · exact hf a
  · exact .inr rfl

theorem okOr_ite {c : Prop} [Decidable c] {e : ε} {x : Outcome ε α} (hx : ¬c → OkOr e x) :
    OkOr e (if c then fail e else x) := by
  split
  · exact .inr rfl
  · exact hx (by assumption)

/-- With one error, two calls agree once they agree on their values. -/
theorem OkOr.ext {e : ε} {x y : Outcome ε α} (hx : OkOr e x) (hy : OkOr e y)
    (h : ∀ a, x = .ok a ↔ y = .ok a) : x = y := by
  rcases hx with ⟨a, rfl⟩ | rfl
  · exact ((h a).mp rfl).symm
  · rcases hy with ⟨b, rfl⟩ | rfl
    · exact (h b).mpr rfl
    · rfl

@[simp] theorem orFail_some (a : α) (e : ε) : orFail (some a) e = .ok a := rfl

@[simp] theorem orFail_none (e : ε) : (orFail none e : Outcome ε α) = fail e := rfl

@[simp] theorem index_cons_zero (b : UInt8) (bs : Bytes) :
    (index (b :: bs) 0 : Outcome ε UInt8) = .ok b := rfl

theorem index_of_lt {bs : Bytes} {i : Nat} (h : i < bs.length) :
    (index bs i : Outcome ε UInt8) = .ok bs[i] := by
  simp [index, h]

theorem slice_eq {bs : Bytes} {i j : Nat} (h : i ≤ j) (hj : j ≤ bs.length) :
    (slice bs i j : Outcome ε Bytes) = .ok (bs.extract i j) := if_pos ⟨h, hj⟩

theorem slice_ne_fail (bs : Bytes) (i j : Nat) (e : ε) : slice bs i j ≠ (fail e : Outcome ε Bytes) := by
  rw [slice]
  split <;> nofun

theorem copyFromSlice_ne_fail (buf : Bytes) (i j : Nat) (src : Bytes) (e : ε) :
    copyFromSlice buf i j src ≠ (fail e : Outcome ε Bytes) := by
  rw [copyFromSlice]
  split <;> nofun

theorem copyWithin_ne_fail (buf : Bytes) (i j dest : Nat) (e : ε) :
    copyWithin buf i j dest ≠ (fail e : Outcome ε Bytes) := by
  rw [copyWithin]
  split <;> nofun

theorem length_of_slice {bs piece : Bytes} {i j : Nat} (h : slice bs i j = (.ok piece : Outcome ε Bytes)) :
    piece.length = j - i := by
  rw [slice] at h
  split at h
  next hc =>
    cases h
    exact extract_length hc.2
  next => exact absurd h (panic_ne_ok piece)

theorem slice_take {bs : Bytes} {n : Nat} (h : n ≤ bs.length) :
    (slice bs 0 n : Outcome ε Bytes) = .ok (bs.take n) := by
  rw [slice_eq (Nat.zero_le n) h, List.extract_eq_take_drop]
  rfl

theorem slice_middle {a b c : Bytes} {i j : Nat} (hi : a.length = i) (hj : i + b.length = j) :
    (slice (a ++ (b ++ c)) i j : Outcome ε Bytes) = .ok b := by
  subst hi hj
  rw [slice_eq (Nat.le_add_right _ _) (by simp only [List.length_append]; omega),
    List.extract_eq_take_drop, List.drop_left, Nat.add_sub_cancel_left, List.take_left]

theorem slice_end {a b : Bytes} {i j : Nat} (hi : a.length = i) (hj : i + b.length = j) :
    (slice (a ++ b) i j : Outcome ε Bytes) = .ok b := by
  have h := slice_middle (ε := ε) (c := []) hi hj
  rwa [List.append_nil] at h

theorem copyFromSlice_eq {buf src : Bytes} {i j : Nat} (h : j = i + src.length)
    (hj : j ≤ buf.length) : (copyFromSlice buf i j src : Outcome ε Bytes) = .ok (overwrite buf i src) :=
  if_pos (by omega)

theorem copyFromSlice_append {buf a b : Bytes} {i j k : Nat} (hj : j = i + a.length)
    (hk : k = j + b.length) (h : k ≤ buf.length) :
    (copyFromSlice (overwrite buf i a) j k b : Outcome ε Bytes) = .ok (overwrite buf i (a ++ b)) := by
  subst hj
  rw [copyFromSlice_eq hk (by rw [overwrite_length (by omega)]; exact h), overwrite_overwrite _ (by omega)]

theorem slice_overwrite {buf src : Bytes} {i j : Nat} (hj : j = i + src.length)
    (h : j ≤ buf.length) : (slice (overwrite buf i src) i j : Outcome ε Bytes) = .ok src := by
  subst hj
  rw [slice_eq (Nat.le_add_right _ _) (by rw [overwrite_length h]; exact h),
    overwrite_extract _ (by omega)]

theorem copyWithin_eq {buf : Bytes} {i j dest : Nat} (h : i ≤ j) (hj : j ≤ buf.length)
    (hd : dest + (j - i) ≤ buf.length) :
    (copyWithin buf i j dest : Outcome ε Bytes) = .ok (overwrite buf dest (buf.extract i j)) :=
  if_pos ⟨h, hj, hd⟩

/-- A call that reads and writes a caller's state. What it wrote before it
failed stays written. -/
def Exec (ε σ α : Type) := σ → Outcome ε α × σ

namespace Exec

def run (x : Exec ε σ α) (s : σ) : Outcome ε α × σ := x s

def bind (x : Exec ε σ α) (f : α → Exec ε σ β) : Exec ε σ β := fun s =>
  match x s with
  | (.ok a, s) => f a s
  | (.error e, s) => (.error e, s)

instance : Monad (Exec ε σ) where
  pure a := fun s => (.ok a, s)
  bind := bind

instance : MonadLift (Outcome ε) (Exec ε σ) := ⟨fun x s => (x, s)⟩

instance : LawfulMonadLift (Outcome ε) (Exec ε σ) where
  monadLift_pure _ := rfl
  monadLift_bind x _ := by
    cases x <;> rfl

def get : Exec ε σ σ := fun s => (.ok s, s)

def set (s : σ) : Exec ε σ Unit := fun _ => (.ok (), s)

def rejectIf (c : Prop) [Decidable c] (e : ε) : Exec ε σ Unit :=
  liftM (Execution.rejectIf c e : Outcome ε Unit)

/-- A write to the state; where it does not go through, the state stays. -/
def update (write : σ → Outcome ε σ) : Exec ε σ Unit := get >>= fun s => liftM (write s) >>= set

@[ext] theorem ext {x y : Exec ε σ α} (h : ∀ s, x.run s = y.run s) : x = y := funext h

@[simp] theorem run_pure (a : α) (s : σ) : (pure a : Exec ε σ α).run s = (.ok a, s) := rfl

theorem run_bind (x : Exec ε σ α) (f : α → Exec ε σ β) (s : σ) :
    (x >>= f).run s = match x.run s with
      | (.ok a, s) => (f a).run s
      | (.error e, s) => (.error e, s) := rfl

@[simp] theorem run_lift (x : Outcome ε α) (s : σ) : (liftM x : Exec ε σ α).run s = (x, s) := rfl

@[simp] theorem run_lift_bind (x : Outcome ε α) (f : α → Exec ε σ β) (s : σ) :
    ((liftM x : Exec ε σ α) >>= f).run s = match x with
      | .ok a => (f a).run s
      | .error e => (.error e, s) := by
  cases x <;> rfl

@[simp] theorem run_ok_bind (a : α) (f : α → Exec ε σ β) (s : σ) :
    ((liftM (.ok a : Outcome ε α) : Exec ε σ α) >>= f).run s = (f a).run s := rfl

@[simp] theorem run_fail_bind (e : ε) (f : α → Exec ε σ β) (s : σ) :
    ((liftM (fail e : Outcome ε α) : Exec ε σ α) >>= f).run s = (fail e, s) := rfl

theorem lift_bind {γ : Type} (x : Outcome ε α) (f : α → Outcome ε β) (g : β → Exec ε σ γ) :
    (liftM (x >>= f) : Exec ε σ β) >>= g = (liftM x : Exec ε σ α) >>= fun a => liftM (f a) >>= g := by
  cases x <;> rfl

@[simp] theorem run_rejectIf (c : Prop) [Decidable c] (e : ε) (s : σ) :
    (rejectIf c e : Exec ε σ Unit).run s = if c then (fail e, s) else (.ok (), s) := by
  rw [rejectIf, run_lift, Execution.rejectIf]
  split <;> rfl

@[simp] theorem run_rejectIf_bind (c : Prop) [Decidable c] (e : ε) (f : Unit → Exec ε σ β) (s : σ) :
    (rejectIf c e >>= f).run s = if c then (fail e, s) else (f ()).run s := by
  by_cases hc : c
  · rw [run_bind, run_rejectIf, if_pos hc, if_pos hc]
    rfl
  · rw [run_bind, run_rejectIf, if_neg hc, if_neg hc]

@[simp] theorem run_get_bind (f : σ → Exec ε σ β) (s : σ) : (get >>= f).run s = (f s).run s := rfl

@[simp] theorem run_set (t s : σ) : (set t : Exec ε σ Unit).run s = (.ok (), t) := rfl

@[simp] theorem run_set_bind (t : σ) (f : Unit → Exec ε σ β) (s : σ) :
    (set t >>= f).run s = (f ()).run t := rfl

@[simp] theorem run_ite (c : Prop) [Decidable c] (x y : Exec ε σ α) (s : σ) :
    (if c then x else y).run s = if c then x.run s else y.run s := by
  split <;> rfl

theorem bind_assoc {γ : Type} (x : Exec ε σ α) (f : α → Exec ε σ β) (g : β → Exec ε σ γ) :
    x >>= f >>= g = x >>= fun a => f a >>= g := by
  ext1 s
  simp only [run_bind]
  rcases x.run s with ⟨_ | a, t⟩ <;> rfl

theorem run_update_bind (write : σ → Outcome ε σ) {s t : σ} (h : write s = .ok t)
    (f : Unit → Exec ε σ β) : (update write >>= f).run s = (f ()).run t := by
  rw [update, bind_assoc, run_get_bind, bind_assoc, h, run_ok_bind, run_set_bind]

theorem pure_bind (a : α) (f : α → Exec ε σ β) : pure a >>= f = f a := rfl

instance : LawfulMonad (Exec ε σ) := by
  refine LawfulMonad.mk' (Exec ε σ) (fun x => ?_) pure_bind bind_assoc
  ext1 s
  change (x >>= fun a => pure (id a)).run s = x.run s
  rw [run_bind]
  rcases x.run s with ⟨_ | a, t⟩ <;> rfl

theorem bind_pure_unit (x : Exec ε σ Unit) : (x >>= fun _ => pure ()) = x := by
  ext1 s
  rw [run_bind]
  rcases x.run s with ⟨_ | a, t⟩ <;> rfl

def eval (x : Exec ε σ α) (s : σ) : Outcome ε α := (x.run s).1

@[simp] theorem eval_pure (a : α) (s : σ) : (pure a : Exec ε σ α).eval s = .ok a := rfl

@[simp] theorem eval_lift (x : Outcome ε α) (s : σ) : (liftM x : Exec ε σ α).eval s = x := rfl

theorem eval_bind (x : Exec ε σ α) (f : α → Exec ε σ β) (s : σ) :
    (x >>= f).eval s = x.eval s >>= fun a => (f a).eval (x.run s).2 := by
  rw [eval, run_bind, eval]
  rcases x.run s with ⟨_ | a, t⟩ <;> rfl

@[simp] theorem eval_lift_bind (x : Outcome ε α) (f : α → Exec ε σ β) (s : σ) :
    ((liftM x : Exec ε σ α) >>= f).eval s = x >>= fun a => (f a).eval s := by
  cases x <;> rfl

@[simp] theorem eval_rejectIf_bind (c : Prop) [Decidable c] (e : ε) (f : Unit → Exec ε σ β) (s : σ) :
    (rejectIf c e >>= f).eval s = if c then fail e else (f ()).eval s := by
  rw [eval, run_rejectIf_bind]
  split <;> rfl

@[simp] theorem eval_get_bind (f : σ → Exec ε σ β) (s : σ) : (get >>= f).eval s = (f s).eval s := rfl

@[simp] theorem eval_set_bind (t : σ) (f : Unit → Exec ε σ β) (s : σ) :
    (set t >>= f).eval s = (f ()).eval t := rfl

theorem fail_bind (e : ε) (f : α → Exec ε σ β) :
    (liftM (fail e : Outcome ε α) : Exec ε σ α) >>= f = liftM (fail e : Outcome ε β) := rfl

end Exec

end LxmfLite.Execution
