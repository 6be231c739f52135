import Maligator.HashIndexRun
import Maligator.Cursor
import Maligator.Array.CardsRun
import Maligator.Gc.Collect
import Maligator.Json.Reader
import Maligator.HeapString.Compare
import Maligator.HeapString.Immutable
import Maligator.Transfer.AllOrNothing
import Maligator.Table.Handles
import Maligator.Shape.Interned
import Maligator.Frame.SnapshotCheck
import Maligator.Loader.HandlerTargets
import Maligator.Loader.SplicePositions
import Maligator.Async.GeneratorQueue
import Maligator.Linker.ImportAlias
import Maligator.Text.Transport
import Maligator.Number.Fixed
import Maligator.Frontend.CjsExports
import Maligator.HeapString.Tiling
