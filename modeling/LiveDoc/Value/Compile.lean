import LiveDoc.Script.Source
import LiveDoc.Value.Heap

namespace LiveDoc.Heap

def compile (h : Heap) (params : List String) (source : String) :
    Except Script.SyntaxError (Function × Heap) :=
  (Script.Program.ofSource source).map (h.define params source)

end LiveDoc.Heap
