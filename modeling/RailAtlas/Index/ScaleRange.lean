import RailAtlas.Ident.Basic

/-!
# The scales of an index

The root square has the greatest scale and clusters stop splitting at the least one. Both are
bounded so that every side and every quarter side is a finite nonzero double.
-/

namespace RailAtlas

/-- Why the index refuses something. A lookup that finds nothing is not an error. -/
inductive IndexError where
  | dataExists (cluster : ClusterId)
  | invalidScaleRange (minScale maxScale : Int)
  | scaleOutOfBounds (scale limit : Int)
  | unknownCluster (cluster : ClusterId)
  | rootIsPermanent (cluster : ClusterId)
deriving DecidableEq

def IndexError.message : IndexError → String
  | dataExists cluster => s!"data exists in {cluster.render}"
  | invalidScaleRange minScale maxScale =>
    s!"invalid scale range: min_scale {minScale} exceeds max_scale {maxScale}"
  | scaleOutOfBounds scale limit => s!"scale {scale} is outside -{limit}..={limit}"
  | unknownCluster cluster => s!"unknown cluster {cluster.render}"
  | rootIsPermanent cluster => s!"the root cluster {cluster.render} cannot be deleted"

/-- The scale of the root square and the scale at which splitting ends. -/
structure ScaleRange where
  maxScale : Int
  minScale : Int
deriving DecidableEq

namespace ScaleRange

def standard : ScaleRange :=
  { maxScale := 16, minScale := 2 }

/-- The greatest magnitude of a scale. -/
def limit : Int := 1000

def allows (scale : Int) : Bool :=
  decide (-limit ≤ scale) && decide (scale ≤ limit)

/-- A range is valid when both scales are within the limit and in order. The greater scale is
checked first, then the smaller one, then their order. -/
def validate (r : ScaleRange) : Except IndexError Unit :=
  if !allows r.maxScale then .error (.scaleOutOfBounds r.maxScale limit)
  else if !allows r.minScale then .error (.scaleOutOfBounds r.minScale limit)
  else if r.maxScale < r.minScale then .error (.invalidScaleRange r.minScale r.maxScale)
  else .ok ()

/-- The number of scales in the range, both ends counted. -/
def depth (r : ScaleRange) : Nat :=
  (r.maxScale - r.minScale + 1).toNat

end ScaleRange

end RailAtlas
