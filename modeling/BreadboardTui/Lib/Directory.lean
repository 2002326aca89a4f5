import BreadboardTui.Lib.Program
import Mathlib.Data.List.AList
import Mathlib.Data.List.Permutation

/-!
# Directories whose steps can fail

One directory of files, named by `N` and holding values of `K`, under the file-system calls
that careful programs make: exclusive creation, write, `fsync`, `rename`, `unlink`, directory
listing and a check of the directory's identity.

Every call is subject to a `Choice` of the environment: it may do its work, or throw **before**
or **after** it took effect. A file whose content is `none` is empty or torn; a file that has
not been synced can become torn when the machine crashes. Names that are
absent or already present are reported as such and never by accident: an injected failure is a
third kind of error.
-/

namespace Effects

/-- A file. The content is `none` while the file is empty, and after its content was torn. -/
structure File (K : Type) where
  content : Option K
  synced : Bool
  deriving DecidableEq, Repr

/-- A directory: finitely many names, each with one file. -/
abbrev Directory (N K : Type) := AList (fun _ : N => File K)

/-- The errors of a file-system call: `ENOENT`, `EEXIST`, and everything else. -/
inductive FileError where
  | missing
  | present
  | failed
  deriving DecidableEq, Repr

/-- The file-system calls. -/
inductive FileOp (N K : Type) where
  | verifyRoot
  | openFile (name : N)
  | readFile (name : N)
  | createFile (name : N)
  | writeFile (name : N) (content : K)
  | syncFile (name : N)
  | renameFile (source target : N)
  | unlinkFile (name : N)
  | syncRoot
  | listRoot

namespace FileOp

variable {N K : Type}

/-- What a successful call returns. -/
abbrev Value : FileOp N K → Type
  | readFile _ => Option K
  | listRoot => List N
  | _ => Unit

/-- What a call answers. -/
abbrev Answer (op : FileOp N K) : Type := Except FileError op.Value

/-- What a call does when nothing fails. -/
def effect [DecidableEq N] (op : FileOp N K) (d : Directory N K) : op.Answer × Directory N K :=
  match op with
  | verifyRoot => (.ok (), d)
  | openFile name => (if name ∈ d then .ok () else .error .missing, d)
  | readFile name =>
    match d.lookup name with
    | some file => (.ok file.content, d)
    | none => (.error .missing, d)
  | createFile name =>
    if name ∈ d then (.error .present, d) else (.ok (), d.insert name ⟨none, false⟩)
  | writeFile name content =>
    if name ∈ d then (.ok (), d.insert name ⟨some content, false⟩) else (.error .missing, d)
  | syncFile name =>
    match d.lookup name with
    | some file => (.ok (), d.insert name { file with synced := true })
    | none => (.error .missing, d)
  | renameFile source target =>
    match d.lookup source with
    | some file => (.ok (), (d.erase source).insert target file)
    | none => (.error .missing, d)
  | unlinkFile name => if name ∈ d then (.ok (), d.erase name) else (.error .missing, d)
  | syncRoot => (.ok (), d)
  | listRoot => (.ok d.keys, d)

end FileOp

/-- When an injected failure strikes, relative to the effect of the call. -/
inductive Fault where
  | before
  | after
  deriving DecidableEq, Repr

/-- The environment's part in one call: whether it fails, and in which order a listing comes
back. -/
structure Choice where
  fault : Option Fault
  order : ℕ

/-- No failure, and listings in the order of creation. -/
def Choice.calm : Choice := ⟨none, 0⟩

namespace FileOp

variable {N K : Type} [DecidableEq N]

/-- Put a listing into the order the environment chose; every order is some choice. -/
def arrange (op : FileOp N K) (order : ℕ) (answer : op.Answer) : op.Answer :=
  match op, answer with
  | listRoot, .ok names => .ok ((names.permutations[order]?).getD names)
  | _, answer => answer

/-- One call under one choice. -/
def perform (op : FileOp N K) (c : Choice) (d : Directory N K) : op.Answer × Directory N K :=
  match c.fault with
  | none => (op.arrange c.order (op.effect d).1, (op.effect d).2)
  | some .before => (.error .failed, d)
  | some .after => (.error .failed, (op.effect d).2)

/-- The same call with an observer that watches the calls and the failures injected into
them. -/
def performObserved {M : Type} (observe : M → FileOp N K → Option Fault → M) (op : FileOp N K)
    (c : Choice) (s : Directory N K × M) : op.Answer × (Directory N K × M) :=
  ((op.perform c s.1).1, (op.perform c s.1).2, observe s.2 op c.fault)

end FileOp

/-- An observer sees a program and does not disturb it. -/
theorem FileOp.eval_performObserved {N K M ε α : Type} [DecidableEq N]
    (observe : M → FileOp N K → Option Fault → M) (c : Choice)
    (p : Program (FileOp N K) FileOp.Answer ε α) (s : Directory N K × M) :
    (p.eval FileOp.perform c s.1).1 = (p.eval (FileOp.performObserved observe) c s).1 := by
  induction p generalizing s with
  | ret => rfl
  | request op next ih =>
    exact ih (op.perform c s.1).1 ((op.perform c s.1).2, observe s.2 op c.fault)

end Effects
