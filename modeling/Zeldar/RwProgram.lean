import Zeldar.Runs
import Zeldar.RwLive
import Zeldar.TinyKernel

namespace Zeldar

/-- The objects that exist, by name, and the world they act on. -/
structure Process (σ : Type) where
  objects : ℕ → Option RwPages
  world : World σ

inductive Op (σ : Type)
  | construct (x : ℕ) (ro : Addr) (size : BitVec 64)
  | moveConstruct (x y : ℕ)
  | moveAssign (x y : ℕ)
  | destroy (x : ℕ)
  | elsewhere (s : σ)

def modifyObject (objects : ℕ → Option RwPages) (x : ℕ) (f : RwPages → RwPages) :
    ℕ → Option RwPages :=
  Function.update objects x ((objects x).map f)

/-- `RwPages x(std::move(y))`, with `std::exchange` on both members of the source. -/
def moveConstruct (objects : ℕ → Option RwPages) (x y : ℕ) :
    Except Halt (ℕ → Option RwPages) :=
  match objects x,objects y with
  | none,some other =>
    let objects := modifyObject objects y (fun o => { o with claim := Claim.empty })
    let objects := modifyObject objects y (fun o => { o with owner := false })
    .ok (Function.update objects x (some ⟨other.claim,other.owner⟩))
  | _,_ => .error .fault

/-- `x = std::move(y)`. The flag of the destination is not written. -/
def moveAssign (objects : ℕ → Option RwPages) (x y : ℕ) : Except Halt (ℕ → Option RwPages) :=
  match objects x,objects y with
  | some _,some other =>
    let objects := modifyObject objects y (fun o => { o with claim := Claim.empty })
    let objects := modifyObject objects x (fun o => { o with claim := other.claim })
    .ok (modifyObject objects y (fun o => { o with owner := false }))
  | _,_ => .error .fault

section Run

variable {σ : Type} (p : Platform σ) (fuel : ℕ)

def step (op : Op σ) (s : Process σ) : Except Halt (Process σ) :=
  match op with
  | .construct x ro size =>
    match s.objects x with
    | some _ => .error .fault
    | none => do
      let (obj,w) ← rwPages p fuel ro size s.world
      return ⟨Function.update s.objects x (some obj),w⟩
  | .moveConstruct x y => do
    let objects ← moveConstruct s.objects x y
    return { s with objects := objects }
  | .moveAssign x y => do
    let objects ← moveAssign s.objects x y
    return { s with objects := objects }
  | .destroy x =>
    match s.objects x with
    | none => .error .fault
    | some obj => do
      let w ← rwPagesDestroy p fuel obj s.world
      return ⟨Function.update s.objects x none,w⟩
  | .elsewhere k => .ok { s with world := { s.world with kernel := k } }

def run : List (Op σ) → Process σ → Except Halt (Process σ)
  | [],s => .ok s
  | op::ops,s => do run ops (← step p fuel op s)

end Run

/-- The steps of a program that has run. -/
abbrev Steps (σ : Type) := List (RunStep (Process σ) (Op σ))

/-- The window that a step maps, which is the one of the object it constructs. -/
def builtBy {σ : Type} (x : RunStep (Process σ) (Op σ)) : Option Claim :=
  match x.label with
  | .construct n _ _ => (x.after.objects n).map RwPages.claim
  | _ => none

/-- The window that a step unmaps, which is the one of the owner it destroys. -/
def releasedBy {σ : Type} (x : RunStep (Process σ) (Op σ)) : Option Claim :=
  match x.label with
  | .destroy n => (x.before.objects n).bind fun o => if o.owner then some o.claim else none
  | _ => none

/-- What a step does to the kernel and to the reservations: it maps and reserves one window, or
unmaps and releases one, or leaves both alone. -/
structure Accounted {σ : Type} (p : Platform σ) (fuel : ℕ) (x : RunStep (Process σ) (Op σ)) :
    Prop where
  built : ∀ c, builtBy x = some c → ∃ ro size alignedRw vm pieces,
    Mapped p fuel ro size x.before.world x.after.world alignedRw vm pieces c
  released : ∀ c, releasedBy x = some c → ∃ pieces,
    Unmapped p fuel x.before.world x.after.world pieces c
  idle : builtBy x = none → releasedBy x = none → x.after.world = x.before.world ∨
    ∃ k, x.label = .elsewhere k ∧ x.after.world = { x.before.world with kernel := k }

/-- No objects yet, and the globals that `virtmemSetup` leaves. -/
def Process.start {σ : Type} (k : σ) (vm : Virtmem) : Process σ := ⟨fun _ => none,⟨k,vm,[]⟩⟩

/-- An object that has been moved from. -/
def RwPages.MovedFrom (o : RwPages) : Prop := o.owner = false ∧ o.claim = Claim.empty

/-- What an object reports is nothing or a live window, and no two objects report
the same one. -/
structure Reports (objects : ℕ → Option RwPages) (live : List Claim) : Prop where
  live : ∀ x o, objects x = some o → o.claim = Claim.empty ∨ o.claim ∈ live
  unique : ∀ x y o o', objects x = some o → objects y = some o' → o.claim = o'.claim →
    o.claim ≠ Claim.empty → x = y

/-- Every live window has an owner, and an object holds something exactly when it
is an owner. -/
structure Owned (objects : ℕ → Option RwPages) (live : List Claim) : Prop where
  idle : ∀ x o, objects x = some o → o.owner = false → o.claim = Claim.empty
  holding : ∀ x o, objects x = some o → o.owner = true → o.claim ≠ Claim.empty
  owner : ∀ c ∈ live, ∃ x o, objects x = some o ∧ o.owner = true ∧ o.claim = c

/-- A move assignment is between objects that have been moved from. -/
def Op.Settled {σ : Type} (s : Process σ) : Op σ → Prop
  | .moveAssign x y => (∀ o, s.objects x = some o → o.MovedFrom) ∧
      ∀ o, s.objects y = some o → o.MovedFrom
  | _ => True

/-- Every move assignment of a run is settled where it is made. -/
def SettledRun {σ : Type} (p : Platform σ) (fuel : ℕ) : List (Op σ) → Process σ → Prop
  | [],_ => True
  | op::ops,s => op.Settled s ∧ ∀ s', step p fuel op s = .ok s' → SettledRun p fuel ops s'

theorem modifyObject_self {objects : ℕ → Option RwPages} {x : ℕ} {o : RwPages}
    (h : objects x = some o) (f : RwPages → RwPages) :
    modifyObject objects x f x = some (f o) := by
  rw [modifyObject, Function.update_self, h, Option.map_some]

theorem modifyObject_of_ne {objects : ℕ → Option RwPages} {x z : ℕ} (h : z ≠ x)
    (f : RwPages → RwPages) : modifyObject objects x f z = objects z :=
  Function.update_of_ne h ..

/-- Construction by a move: the new object is the old value of the source, which is
left moved from. -/
theorem moveConstruct_ok {objects objects' : ℕ → Option RwPages} {x y : ℕ}
    (h : moveConstruct objects x y = .ok objects') :
    ∃ o, objects x = none ∧ objects y = some o ∧ x ≠ y ∧ objects' x = some o ∧
      objects' y = some ⟨Claim.empty,false⟩ ∧ ∀ z, z ≠ x → z ≠ y → objects' z = objects z := by
  unfold moveConstruct at h
  split at h
  · rename_i other hx hy
    injection h with h
    subst h
    have hxy : x ≠ y := by
      intro e
      rw [e, hy] at hx
      cases hx
    refine ⟨other,hx,hy,hxy,Function.update_self ..,?_,?_⟩
    · rw [Function.update_of_ne hxy.symm, modifyObject_self (modifyObject_self hy _)]
    · intro z hzx hzy
      rw [Function.update_of_ne hzx, modifyObject_of_ne hzy, modifyObject_of_ne hzy]
  · cases h

/-- Assignment by a move: the destination takes the claim and keeps its flag; the
source loses both, unless it is the destination, which keeps the claim. -/
theorem moveAssign_ok {objects objects' : ℕ → Option RwPages} {x y : ℕ}
    (h : moveAssign objects x y = .ok objects') :
    ∃ a b, objects x = some a ∧ objects y = some b ∧
      (∀ z, z ≠ x → z ≠ y → objects' z = objects z) ∧
      ((x = y ∧ objects' x = some ⟨b.claim,false⟩) ∨
        (x ≠ y ∧ objects' x = some ⟨b.claim,a.owner⟩ ∧
          objects' y = some ⟨Claim.empty,false⟩)) := by
  unfold moveAssign at h
  split at h
  · rename_i a b hx hy
    injection h with h
    subst h
    refine ⟨a,b,hx,hy,?_,?_⟩
    · intro z hzx hzy
      rw [modifyObject_of_ne hzy, modifyObject_of_ne hzx, modifyObject_of_ne hzy]
    · by_cases hxy : x = y
      · -- a move onto itself clears the claim first and writes it back last
        left
        subst hxy
        refine ⟨rfl,?_⟩
        rw [modifyObject_self (modifyObject_self (modifyObject_self hx _) _)]
      · right
        refine ⟨hxy,?_,?_⟩
        · -- the three writes go to two objects
          have hx1 : modifyObject objects y (fun o => { o with claim := Claim.empty }) x =
              some a := by rw [modifyObject_of_ne hxy, hx]
          rw [modifyObject_of_ne hxy, modifyObject_self hx1]
        · have hy1 := modifyObject_self hy (fun o => { o with claim := Claim.empty })
          have hy2 : modifyObject (modifyObject objects y
              (fun o => { o with claim := Claim.empty })) x (fun o => { o with claim := b.claim })
              y = some { b with claim := Claim.empty } := by
            rw [modifyObject_of_ne (Ne.symm hxy), hy1]
          rw [modifyObject_self hy2]
  · cases h

end Zeldar
