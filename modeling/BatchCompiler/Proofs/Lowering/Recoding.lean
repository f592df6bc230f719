import BatchCompiler.Target.Frame

/-!
# Recoding

Code with other names for its variables and other texts. Moving code into its frame and closing it
as a function go by the form of the code, so recoding may come before them or after them.
-/

namespace BatchCompiler.Target

/-- New names for variables, and new texts. What is called keeps its text, as labels do. -/
structure Recode where
  name : String → String
  text : String → String := id
  comment : String → String := id

mutual

def Place.rename (f : String → String) : Place → Place
  | .absent => .absent
  | .name n => .name (f n)
  | .item base index => .item (base.rename f) (index.rename f)
  | .slot n => .slot n

def Index.rename (f : String → String) : Index → Index
  | .absent => .absent
  | .int v => .int v
  | .read p => .read (p.rename f)

end

def Arith.rename (f : String → String) : Arith → Arith
  | .absent => .absent
  | .int v => .int v
  | .read p => .read (p.rename f)
  | .unary op e => .unary op (e.rename f)
  | .binary op l r => .binary op (l.rename f) (r.rename f)

variable (c : Recode)

def Fragment.recode : Fragment → Fragment
  | .absent => .absent
  | .text s => .text (c.text s)
  | .read p => .read (p.rename c.name)

def recodeText (fs : List Fragment) : List Fragment :=
  fs.map (Fragment.recode c)

def Comparison.recode (x : Comparison) : Comparison where
  op := x.op
  left := recodeText c x.left
  right := recodeText c x.right

mutual

def Stmt.recode : Stmt → Stmt
  | .absent => .absent
  | .raw t => .raw t
  | .comment t => .comment (c.comment t)
  | .label n => .label n
  | .jump t => .jump t
  | .setText dst value => .setText (dst.rename c.name) (recodeText c value)
  | .setNumber dst e => .setNumber (dst.rename c.name) (e.rename c.name)
  | .call callee args => .call (callee.recode { name := c.name }) (args.map (recodeText c))
  | .whenTrue x body => .whenTrue (x.recode c) (recode body)
  | .choose x thenBody elseBody => .choose (x.recode c) (recode thenBody) (recode elseBody)

def recode : List Stmt → List Stmt
  | [] => []
  | s :: rest => s.recode :: recode rest

end

variable {c}

theorem recode_eq_map (code : List Stmt) : recode c code = code.map (Stmt.recode c) := by
  induction code with
  | nil => rfl
  | cons s rest ih => rw [recode, ih, List.map_cons]

theorem recode_append (a b : List Stmt) : recode c (a ++ b) = recode c a ++ recode c b := by
  rw [recode_eq_map, recode_eq_map, recode_eq_map, List.map_append]

theorem recodeText_append (a b : List Fragment) :
    recodeText c (a ++ b) = recodeText c a ++ recodeText c b :=
  List.map_append

section Id

mutual

@[simp] theorem Place.rename_id : (p : Place) → p.rename id = p
  | .absent | .name _ | .slot _ => rfl
  | .item base index => by rw [Place.rename, base.rename_id, index.rename_id]

@[simp] theorem Index.rename_id : (i : Index) → i.rename id = i
  | .absent | .int _ => rfl
  | .read p => by rw [Index.rename, p.rename_id]

end

@[simp] theorem Arith.rename_id (e : Arith) : e.rename id = e := by
  induction e with
  | absent | int => rfl
  | read p => rw [rename, p.rename_id]
  | unary op e ih => rw [rename, ih]
  | binary op l r ihl ihr => rw [rename, ihl, ihr]

@[simp] theorem Fragment.recode_id (f : Fragment) : f.recode { name := id } = f := by
  cases f with
  | read p => rw [recode, p.rename_id]
  | _ => rfl

@[simp] theorem recodeText_id (fs : List Fragment) : recodeText { name := id } fs = fs :=
  (List.map_congr_left fun f _ => f.recode_id).trans (List.map_id' fs)

@[simp] theorem Comparison.recode_id (x : Comparison) : x.recode { name := id } = x := by
  rw [recode, recodeText_id, recodeText_id]

mutual

@[simp] theorem Stmt.recode_id : (s : Stmt) → s.recode { name := id } = s
  | .absent | .raw _ | .comment _ | .label _ | .jump _ => rfl
  | .setText dst value => by rw [Stmt.recode, dst.rename_id, recodeText_id]
  | .setNumber dst e => by rw [Stmt.recode, dst.rename_id, e.rename_id]
  | .call callee args => by
    have hArgs : args.map (recodeText { name := id }) = args :=
      (List.map_congr_left fun fs _ => recodeText_id fs).trans (List.map_id' args)
    rw [Stmt.recode, callee.recode_id, hArgs]
  | .whenTrue x body => by rw [Stmt.recode, x.recode_id, recode_id body]
  | .choose x thenBody elseBody => by
    rw [Stmt.recode, x.recode_id, recode_id thenBody, recode_id elseBody]

@[simp] theorem recode_id : (code : List Stmt) → recode { name := id } code = code
  | [] => rfl
  | s :: rest => by rw [recode, s.recode_id, recode_id rest]

end

end Id

section Frames

variable {α α' β β' : Type} {h : β → β'}

theorem bind_eq_map {x : Except Crash α} {x' : Except Crash α'} {f : α → α'}
    {k : α → Except Crash β} {k' : α' → Except Crash β'} (hx : x' = x.map f)
    (hk : ∀ a, k' (f a) = (k a).map h) : x' >>= k' = (x >>= k).map h := by
  rw [hx]
  cases x with
  | error why => rfl
  | ok a => exact hk a

theorem mapM_map_eq {move : α → Except Crash α} {f : α → α}
    (hMove : ∀ a, move (f a) = (move a).map f) (as : List α) :
    (as.map f).mapM move = (as.mapM move).map (List.map f) := by
  induction as with
  | nil => rfl
  | cons a rest ih =>
    rw [List.map_cons, List.mapM_cons, List.mapM_cons]
    exact bind_eq_map (hMove a) fun a' => bind_eq_map ih fun rest' => rfl

theorem inFrame_rename_place (f : String → String) :
    (p : Place) → (p.rename f).inFrame = p.inFrame.map (Place.rename f)
  | .absent | .name _ | .slot _ => rfl
  | .item base index => by
    rw [Place.rename, Place.inFrame, Place.inFrame]
    exact bind_eq_map (inFrame_rename_place f base) fun base' => rfl

theorem inFrame_rename_arith (f : String → String) (e : Arith) :
    (e.rename f).inFrame = e.inFrame.map (Arith.rename f) := by
  induction e with
  | absent | int => rfl
  | read p => exact bind_eq_map (inFrame_rename_place f p) fun p' => rfl
  | unary op e ih =>
    rw [Arith.rename, Arith.inFrame, Arith.inFrame]
    exact bind_eq_map ih fun e' => rfl
  | binary op l r ihl ihr =>
    rw [Arith.rename, Arith.inFrame, Arith.inFrame]
    exact bind_eq_map ihl fun l' => bind_eq_map ihr fun r' => rfl

theorem inFrame_recode_fragment (f : Fragment) :
    (f.recode c).inFrame = f.inFrame.map (Fragment.recode c) := by
  cases f with
  | read p => exact bind_eq_map (inFrame_rename_place c.name p) fun q => rfl
  | _ => rfl

theorem inFrame_recodeText (fs : List Fragment) :
    (recodeText c fs).mapM Fragment.inFrame = (fs.mapM Fragment.inFrame).map (recodeText c) :=
  mapM_map_eq inFrame_recode_fragment fs

theorem inFrame_recode_comparison (x : Comparison) :
    (x.recode c).inFrame = x.inFrame.map (Comparison.recode c) :=
  bind_eq_map (inFrame_recodeText x.left) fun _ =>
    bind_eq_map (inFrame_recodeText x.right) fun _ => rfl

mutual

theorem inFrame_recode_stmt : (s : Stmt) → (s.recode c).inFrame = s.inFrame.map (Stmt.recode c)
  | .absent | .raw _ | .comment _ | .label _ | .jump _ => rfl
  | .setText dst value => by
    rw [Stmt.recode, Stmt.inFrame, Stmt.inFrame]
    exact bind_eq_map (inFrame_rename_place c.name dst) fun dst' =>
      bind_eq_map (inFrame_recodeText value) fun value' => rfl
  | .setNumber dst e => by
    rw [Stmt.recode, Stmt.inFrame, Stmt.inFrame]
    exact bind_eq_map (inFrame_rename_place c.name dst) fun dst' =>
      bind_eq_map (inFrame_rename_arith c.name e) fun e' => rfl
  | .call callee args => by
    rw [Stmt.recode, Stmt.inFrame, Stmt.inFrame]
    exact bind_eq_map (mapM_map_eq inFrame_recodeText args) fun args' =>
      bind_eq_map (inFrame_recode_fragment callee) fun callee' => rfl
  | .whenTrue x body => by
    rw [Stmt.recode, Stmt.inFrame, Stmt.inFrame]
    exact bind_eq_map (inFrame_recode_comparison x) fun x' =>
      bind_eq_map (inFrame_recode body) fun body' => rfl
  | .choose x thenBody elseBody => by
    rw [Stmt.recode, Stmt.inFrame, Stmt.inFrame]
    exact bind_eq_map (inFrame_recode_comparison x) fun x' =>
      bind_eq_map (inFrame_recode thenBody) fun thenBody' =>
        bind_eq_map (inFrame_recode elseBody) fun elseBody' => rfl

theorem inFrame_recode : (code : List Stmt) →
    inFrame (recode c code) = (inFrame code).map (recode c)
  | [] => rfl
  | s :: rest => by
    rw [recode, inFrame, inFrame]
    exact bind_eq_map (inFrame_recode_stmt s) fun s' =>
      bind_eq_map (inFrame_recode rest) fun rest' => rfl

end

end Frames

theorem endsWithReturn_recode (code : List Stmt) :
    endsWithReturn (recode c code) = endsWithReturn code := by
  unfold endsWithReturn
  rw [recode_eq_map, List.getLast?_map]
  cases code.getLast? with
  | none => rfl
  | some s => cases s <;> rfl

theorem recode_parameterCopies (slot : Int) (params : List String) :
    recode c (parameterCopies slot params) = parameterCopies slot (params.map c.name) := by
  induction params generalizing slot with
  | nil => rfl
  | cons x rest ih =>
    rw [parameterCopies, recode, ih]
    rfl

theorem recode_assemble (name : String) (params : List String) (body : List Stmt) :
    recode c (assemble name params body) =
      assemble name (params.map c.name) (recode c body) := by
  simp only [assemble, recode_append, recode_parameterCopies, endsWithReturn_recode]
  congr 2
  split <;> rfl

end BatchCompiler.Target
