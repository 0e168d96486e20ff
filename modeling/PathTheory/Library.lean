import PathTheory.Reduction
/-!
The library every environment starts from: natural numbers, the interval, paths with their
application, equality, and transport along a family over the interval.
-/
namespace PathTheory.Library

def nat : DefId := ⟨0, "Nat"⟩
def zero : DefId := ⟨1, "zero"⟩
def suc : DefId := ⟨2, "suc"⟩
def interval : DefId := ⟨3, "I"⟩
def left : DefId := ⟨4, "left"⟩
def right : DefId := ⟨5, "right"⟩
def path : DefId := ⟨6, "Path"⟩
def pathCon : DefId := ⟨7, "path"⟩
def eq : DefId := ⟨8, "="⟩
def pathAt : DefId := ⟨9, "@"⟩
def coe : DefId := ⟨10, "coe"⟩

def natType : Term := .data nat .set0 []
def intervalType : Term := .data interval .set0 []

def constant (c : DefId) (args : List Term) : Term := .con c .set0 [] args

def zeroTerm : Term := constant zero []
def sucOf (n : Term) : Term := constant suc [n]
def leftTerm : Term := constant left []
def rightTerm : Term := constant right []

def numeral : Nat → Term
  | 0 => zeroTerm
  | n + 1 => sucOf (numeral n)

/-- The value of a chain of successors that ends in zero. -/
def asNumeral? : Term → Option Nat
  | .con c _ _ args =>
      if c = zero then some 0
      else if c = suc then match args with
        | [] => none
        | n :: _ => (asNumeral? n).map (· + 1)
      else none
  | _ => none

/-- The family over the interval that is the same type everywhere. -/
def constantFamily (type : Term) : Fresh Term := do
  return .lam .explicit (← Fresh.var "_") intervalType type

def pathType (family a b : Term) : Term := .data path .set0 [family, a, b]

def pathOf (family a b f : Term) : Term := .con pathCon .set0 [family, a, b] [f]

def eqOf (type a b : Term) : Term := .call eq .set0 [type, a, b]

def atOf (family a b p i : Term) : Term := .call pathAt .set0 [family, a, b, p, i]

def coeOf (family a i : Term) : Term := .call coe .set0 [family, a, i]

def natData : Definition := .data ⟨[], .set0, [zero, suc], false, false⟩

def zeroCon : Definition := .constructor ⟨nat, [], 0⟩

def sucCon : Definition := .constructor ⟨nat, Telescope.ofPairs [(⟨0, "n"⟩, natType)], 0⟩

def intervalData : Definition := .data ⟨[], .set0, [left, right], false, true⟩

def endCon : Definition := .constructor ⟨interval, [], 0⟩

/-- A family over the interval with an element at either end, over variables from the number on. -/
def pathParams (n : Nat) : Telescope :=
  let family : Var := ⟨n, "A"⟩
  Telescope.ofPairs
    [(family, .pi .explicit ⟨n + 3, "_"⟩ intervalType (.univ .std)),
     (⟨n + 1, "a"⟩, .app (.ref family) leftTerm),
     (⟨n + 2, "a'"⟩, .app (.ref family) rightTerm)]

/-- Paths in a type are one dimension lower than the type. -/
def pathSort : Universe :=
  ⟨.ofVar (.param .predicative), .shift (.param .homotopy) (-1) none⟩

/-- Elements of the family at every point of the interval. -/
def sectionType (family i : Var) : Term :=
  .pi .explicit i intervalType (.app (.ref family) (.ref i))

def pathData : Definition := .data ⟨pathParams 1, pathSort, [pathCon], false, false⟩

def pathConstructor : Definition :=
  .constructor ⟨path, Telescope.ofPairs [(⟨6, "f"⟩, sectionType ⟨1, "A"⟩ ⟨5, "i"⟩)], 0⟩

def eqFunction : Definition :=
  let type : Var := ⟨7, "A"⟩
  let a : Var := ⟨8, "a"⟩
  let b : Var := ⟨9, "a'"⟩
  .function
    { params := [⟨.implicit, type, .univ .std⟩, ⟨.explicit, a, .ref type⟩, ⟨.explicit, b, .ref type⟩]
      result := .univ pathSort
      body := some (.term (.data path .std
        [.lam .explicit ⟨10, "_"⟩ intervalType (.ref type), .ref a, .ref b]))
      transports := false
      status := .done }

/-- A path at the left and the right end is what its type says, whatever the path is; elsewhere a
    path given by a function is that function. -/
def atFunction : Definition :=
  let family : Var := ⟨11, "A"⟩
  let a : Var := ⟨12, "a"⟩
  let b : Var := ⟨13, "a'"⟩
  let p : Var := ⟨15, "p"⟩
  let i : Var := ⟨16, "i"⟩
  let params := pathParams 11 ++ Telescope.ofPairs
    [(p, .data path .std [.ref family, .ref a, .ref b]), (i, intervalType)]
  let f : Var := ⟨21, "f"⟩
  let j : Var := ⟨22, "i"⟩
  let byFunction := CaseTree.branch (pathParams 17) [(.con pathCon,
    .leaf (Telescope.ofPairs [(f, sectionType ⟨17, "A"⟩ ⟨23, "i"⟩), (j, intervalType)])
      (.app (.ref f) (.ref j)))]
  .function
    { params
      result := .app (.ref family) (.ref i)
      body := some (.tree (.interval params [⟨some (.ref a), some (.ref b)⟩] (some byFunction)))
      transports := false
      status := .done }

def coeFunction : Definition :=
  let family : Var := ⟨24, "A"⟩
  let i : Var := ⟨28, "i"⟩
  let params := (pathParams 24).take 2 ++ Telescope.ofPairs [(i, intervalType)]
  .function
    { params
      result := .app (.ref family) (.ref i)
      body := some (.tree (.interval params [⟨some (.ref ⟨25, "a"⟩), none⟩] none))
      transports := true
      status := .done }

def environment (fuel : Nat) : Environment :=
  { Environment.empty fuel with
    definitions := #[natData, zeroCon, sucCon, intervalData, endCon, endCon, pathData,
      pathConstructor, eqFunction, atFunction, coeFunction]
    names := #["Nat", "zero", "suc", "I", "left", "right", "Path", "path", "=", "@", "coe"] }

/-- The first number that no variable of the library has. -/
def firstFresh : Nat := 29

theorem asNumeral_numeral (n : Nat) : asNumeral? (numeral n) = some n := by
  induction n with
  | zero => rfl
  | succ n ih => simp [numeral, sucOf, constant, asNumeral?, ih, zero, suc]

end PathTheory.Library
