namespace LiveDoc

structure Config where
  functionOpen : String := "("
  functionClose : String := ")"
  getKey : String := "get"
  setKey : String := "set"
  includeKey : String := "@include"
  deriving DecidableEq

/-- The tokens to change; a token that is not named stays as it is. -/
structure Overrides where
  functionOpen : Option String := none
  functionClose : Option String := none
  getKey : Option String := none
  setKey : Option String := none
  includeKey : Option String := none
  deriving DecidableEq

namespace Config

def merge (c : Config) (o : Overrides) : Config where
  functionOpen := o.functionOpen.getD c.functionOpen
  functionClose := o.functionClose.getD c.functionClose
  getKey := o.getKey.getD c.getKey
  setKey := o.setKey.getD c.setKey
  includeKey := o.includeKey.getD c.includeKey

def ofOverrides (o : Overrides) : Config :=
  merge {} o

def isAccessorKeySet (c : Config) (keys : List String) : Bool :=
  keys.all (fun key => key = c.getKey || key = c.setKey) && (keys.length = 1 || keys.length = 2)

end Config

end LiveDoc
