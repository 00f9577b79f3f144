import SecureBoot.Rom.Translation
import SecureBoot.Host.Image
import SecureBoot.Prim.SyncReqAckNrz
import SecureBoot.RomCtrl.AddHash
import SecureBoot.Prim.EscChannel
import SecureBoot.RomCtrl.CheckerCoverage
import SecureBoot.LcCtrl.FsmSound
import SecureBoot.Kmac.AbsorbSpec
import SecureBoot.Prim.RegCdcProgress
import SecureBoot.Otbn.LoopBodies
import SecureBoot.Host.Present
import SecureBoot.AlertHandler.Escalation
import SecureBoot.Crypto.AesGcmModes
import SecureBoot.AlertHandler.PingOrder
import SecureBoot.Drivers.OtbnLoad
import SecureBoot.Drivers.KmacProcess
import SecureBoot.Rom.ShutdownInit
import SecureBoot.Rom.PageProgram
import SecureBoot.BootData.ActivePageSpec
import SecureBoot.Runtime.PrintFormat
import SecureBoot.Base.MemoryBody
import SecureBoot.Base.HardenedOrder
import SecureBoot.Host.ParseInt
import SecureBoot.Host.SpiFlashProgram
import SecureBoot.Host.LegacyUpdate
import SecureBoot.Host.RescueFrame
import SecureBoot.Host.ImageAssembler
import SecureBoot.Host.ManifestSpec
import SecureBoot.Runtime.UjsonStatusTrip
import SecureBoot.Prim.PackerStream
import SecureBoot.Prim.ArbiterFairness
import SecureBoot.Prim.PrinceWidths
import SecureBoot.Host.PyPresent
import SecureBoot.RomCtrl.LoadElf
import SecureBoot.RomCtrl.VmemTrip
import SecureBoot.Prim.Crc32
import SecureBoot.Prim.Keccak
import SecureBoot.Design.HexLiteral
import SecureBoot.Tlul.ByteWrite
import SecureBoot.Prim.SubregShadow
import SecureBoot.Prim.RamScrIntegrity
import SecureBoot.Prim.FifoAsyncSramOrder
import SecureBoot.Design.LcStEnc
import SecureBoot.Prim.MaxTree
import SecureBoot.Prim.OnehotCheck
import SecureBoot.Keymgr.Reject
import SecureBoot.Otbn.Dmem
import SecureBoot.Runtime.PmpEncoding
import SecureBoot.Otbn.SimulatorLock
import SecureBoot.Rom.Verify
import SecureBoot.Design.OtpMemMap
import SecureBoot.Prim.AlertChannel
import SecureBoot.Hmac.Sha2Hash
import SecureBoot.Uart.Loopback
import SecureBoot.RvPlic.Claims
