import CoreCommon.Base64
import CoreCommon.Parser
import CoreCommon.Peg
import CoreCommon.SmallVector
import CoreCommon.ParserSafety
import CoreCommon.ParserPeg
import CoreCommon.Map
import CoreCommon.TriangularProbe
import CoreCommon.MapTable
import CoreCommon.MapCalls
import CoreCommon.MapRefinement
import CoreCommon.MapTermination
import CoreCommon.AvlTree
import CoreCommon.Btree
import CoreCommon.BtreeMemory
import CoreCommon.BtreeBalance
import CoreCommon.BtreeInsert
import CoreCommon.BtreeRemove
import CoreCommon.BtreeRuns
import CoreCommon.MapStorage
import CoreCommon.ParserMeaning
import CoreCommon.MapFind
import CoreCommon.LayerClear
import CoreCommon.MapUpsert
import CoreCommon.SortedMap
import CoreCommon.Template
import CoreCommon.Querystring
import CoreCommon.TemplateLength
import CoreCommon.TemplateMeaning
import CoreCommon.TemplateMarkup
import CoreCommon.MapInserts
import CoreCommon.MapReserved
import CoreCommon.Config
import CoreCommon.ConfigParse
import CoreCommon.Digital
import CoreCommon.DigitalAdd
import CoreCommon.DigitalExact
import CoreCommon.DigitalCompare
import CoreCommon.MapListing
import CoreCommon.ConfigRoundTrip
import CoreCommon.WindowOptions
import CoreCommon.ParserState
import CoreCommon.Server
import CoreCommon.ServerClose
import CoreCommon.ServerArrival
import CoreCommon.ParserRules
import CoreCommon.ServerRequestLine
import CoreCommon.ServerCalls
import CoreCommon.ServerResponse
import CoreCommon.ServerHandlers
import CoreCommon.ParserPrefix
import CoreCommon.ServerParseHeader
import CoreCommon.BtreeSwap
import CoreCommon.BtreeCross
import CoreCommon.BtreeIterator
import CoreCommon.BtreeOrder
import CoreCommon.BtreeHeight
import CoreCommon.Agenda
import CoreCommon.BtreeEvents
import CoreCommon.BtreeConsume
import CoreCommon.SmallVectorIterator
import CoreCommon.SmallVectorOps
import CoreCommon.DigitalMul
import CoreCommon.ArraySet
import CoreCommon.ArraySetIterator
import CoreCommon.Base64Rfc
import CoreCommon.BitReinterpret
import CoreCommon.VarIntRef
import CoreCommon.DigitalDigit
import CoreCommon.DigitalInteger
import CoreCommon.DigitalShift
import CoreCommon.DigitalDiv
import CoreCommon.DigitalSize
import CoreCommon.Cofactors
import CoreCommon.DigitalRemainder
import CoreCommon.DigitalExpr
import CoreCommon.DigitalPrint
import CoreCommon.Rational
import CoreCommon.FirstMatch
import CoreCommon.RawString
import CoreCommon.Rotation
import CoreCommon.Serialize
import CoreCommon.MapGroups
import CoreCommon.Path
import CoreCommon.Dft
import CoreCommon.ParserValues
import CoreCommon.ParserErrors
import CoreCommon.TemplateCounts
import CoreCommon.TriangulateTiles
import CoreCommon.ServerHead
