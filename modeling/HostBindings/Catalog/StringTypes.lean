import HostBindings.Text

/-!
Host string enumerations: aliases that cross the boundary as plain strings.
-/

namespace HostBindings.Catalog

/-- Names of the host's string enumerations. -/
def stringTypes : List Text :=
  List.map Text.ofString
    ["AlignSetting", "AnimationPlayState", "AnimationReplaceState", "AppendMode",
      "AttestationConveyancePreference", "AudioContextLatencyCategory", "AudioContextState",
      "AuthenticatorAttachment", "AuthenticatorTransport", "AutoKeyword", "AutomationRate",
      "BinaryType", "BiquadFilterType", "CanPlayTypeResult", "CanvasDirection", "CanvasFillRule",
      "CanvasFontKerning", "CanvasFontStretch", "CanvasFontVariantCaps", "CanvasLineCap",
      "CanvasLineJoin", "CanvasTextAlign", "CanvasTextBaseline", "CanvasTextRendering",
      "ChannelCountMode", "ChannelInterpretation", "ClientTypes", "ColorGamut",
      "ColorSpaceConversion", "CompositeOperation", "CompositeOperationOrAuto",
      "CredentialMediationRequirement", "DOMParserSupportedType", "DirectionSetting",
      "DisplayCaptureSurfaceType", "DistanceModelType", "DocumentReadyState",
      "DocumentVisibilityState", "EndOfStreamError", "EndingType", "FileSystemHandleKind",
      "FillMode", "FontFaceLoadStatus", "FontFaceSetLoadStatus", "FullscreenNavigationUI",
      "GamepadHapticActuatorType", "GamepadMappingType", "GlobalCompositeOperation",
      "HdrMetadataType", "IDBCursorDirection", "IDBRequestReadyState", "IDBTransactionDurability",
      "IDBTransactionMode", "ImageOrientation", "ImageSmoothingQuality",
      "IterationCompositeOperation", "KeyFormat", "KeyType", "KeyUsage", "LineAlignSetting",
      "LockMode", "MediaDecodingType", "MediaDeviceKind", "MediaEncodingType",
      "MediaKeyMessageType", "MediaKeySessionClosedReason", "MediaKeySessionType",
      "MediaKeyStatus", "MediaKeysRequirement", "MediaSessionAction", "MediaSessionPlaybackState",
      "MediaStreamTrackState", "NavigationTimingType", "NotificationDirection",
      "NotificationPermission", "OrientationLockType", "OrientationType", "OscillatorType",
      "OverSampleType", "PanningModelType", "PaymentComplete", "PermissionName", "PermissionState",
      "PlaybackDirection", "PositionAlignSetting", "PredefinedColorSpace", "PremultiplyAlpha",
      "PresentationStyle", "PublicKeyCredentialType", "PushEncryptionKeyName", "RTCBundlePolicy",
      "RTCDataChannelState", "RTCDegradationPreference", "RTCDtlsTransportState",
      "RTCEncodedVideoFrameType", "RTCErrorDetailType", "RTCIceCandidateType", "RTCIceComponent",
      "RTCIceConnectionState", "RTCIceCredentialType", "RTCIceGathererState",
      "RTCIceGatheringState", "RTCIceProtocol", "RTCIceTcpCandidateType", "RTCIceTransportPolicy",
      "RTCIceTransportState", "RTCPeerConnectionState", "RTCPriorityType", "RTCRtcpMuxPolicy",
      "RTCRtpTransceiverDirection", "RTCSctpTransportState", "RTCSdpType", "RTCSignalingState",
      "RTCStatsIceCandidatePairState", "RTCStatsType", "ReadyState", "RecordingState",
      "ReferrerPolicy", "RemotePlaybackState", "RequestCache", "RequestCredentials",
      "RequestDestination", "RequestMode", "RequestRedirect", "ResidentKeyRequirement",
      "ResizeObserverBoxOptions", "ResizeQuality", "ResponseType", "ScrollBehavior",
      "ScrollLogicalPosition", "ScrollRestoration", "ScrollSetting",
      "SecurityPolicyViolationEventDisposition", "SelectionMode", "ServiceWorkerState",
      "ServiceWorkerUpdateViaCache", "ShadowRootMode", "SlotAssignmentMode",
      "SpeechSynthesisErrorCode", "TextTrackKind", "TextTrackMode", "TouchType",
      "TransferFunction", "UserVerificationRequirement", "VideoColorPrimaries",
      "VideoFacingModeEnum", "VideoMatrixCoefficients", "VideoTransferCharacteristics",
      "WebGLPowerPreference", "WorkerType", "XMLHttpRequestResponseType"]

end HostBindings.Catalog
