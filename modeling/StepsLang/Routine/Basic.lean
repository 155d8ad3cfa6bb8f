import StepsLang.Statement.Basic

namespace StepsLang

structure TypedName where
  location : Location
  name : Bytes
  type : Option TypeName
  deriving DecidableEq, Repr, Inhabited

structure Declaration where
  location : Location
  name : Bytes
  type : TypeName
  fixed : Bool
  deriving DecidableEq, Repr, Inhabited

structure Routine where
  location : Location := {}
  name : Bytes := []
  parameters : List TypedName := []
  returns : Option TypedName := none
  declarations : List Declaration := []
  hasDo : Bool := false
  body : List Statement := []
  deriving Repr, Inhabited

def Routine.parameterNames (r : Routine) : List Bytes := r.parameters.map (·.name)

structure Step extends Routine where
  floor : Bytes := []
  floorLocation : Location := {}
  risers : List Routine := []
  deriving Repr, Inhabited

def Step.riser? (s : Step) (name : Bytes) : Option Routine := s.risers.find? (·.name == name)

structure FloorEntry where
  location : Location
  name : Bytes
  deriving DecidableEq, Repr, Inhabited

structure Floor where
  location : Location := {}
  name : Bytes := []
  steps : List FloorEntry := []
  deriving DecidableEq, Repr, Inhabited

structure Building where
  location : Location := {}
  name : Bytes := []
  body : List Statement := []
  deriving Repr, Inhabited

end StepsLang
